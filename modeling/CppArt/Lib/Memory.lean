/-
**A memory of cells with explicit allocation, and what a computation leaves alone.**

A `Memory C` maps addresses to cells; an address from `next` on has never been allocated, so it
reads `none` (`bounded`, carried by the structure). Allocation hands out `next`, so an address is
never reused. `failAt` names the allocation that fails, if one is to fail.

* `Same m m' s` — the two memories hold the same cells on `s`;
* `Keeps m m' own` — the frame of a computation that owns `own`: every other allocated cell is
  unchanged. Frames compose along what the first computation leaves owned (`Keeps.trans`);
* `Renews m m' own own'` — it owns `own'` afterwards: old addresses and new ones, and every one of
  these that still holds a cell, so that no cell is lost;
* `Wipes m m' own` — exactly the cells of `own` are freed.
-/

import Mathlib

namespace CppArt

/-- An address of a cell. -/
abbrev Addr := ℕ

/-- A memory of cells. -/
@[ext]
structure Memory (C : Type) where
  get : Addr → Option C
  next : Addr
  bounded : ∀ a, next ≤ a → get a = none
  failAt : Option Addr

namespace Memory

variable {C : Type}

/-- The memory in which nothing has been allocated. -/
def blank : Memory C where
  get _ := none
  next := 0
  bounded _ _ := rfl
  failAt := none

/-- The memory with a new cell at `next`. -/
def alloc (m : Memory C) (c : C) : Memory C where
  get a := if a = m.next then some c else m.get a
  next := m.next + 1
  bounded a le := by
    rw [if_neg (Nat.lt_of_succ_le le).ne']
    exact m.bounded a (Nat.le_of_succ_le le)
  failAt := m.failAt

/-- The memory with a live cell overwritten. -/
def set (m : Memory C) (a : Addr) (c : C) : Memory C where
  get b := if b = a then (m.get a).map fun _ => c else m.get b
  next := m.next
  bounded b le := by
    by_cases same : b = a
    · rw [if_pos same, ← same, m.bounded b le]
      rfl
    · rw [if_neg same]
      exact m.bounded b le
  failAt := m.failAt

/-- The memory with a cell freed. -/
def free (m : Memory C) (a : Addr) : Memory C where
  get b := if b = a then none else m.get b
  next := m.next
  bounded b le := by
    by_cases same : b = a
    · rw [if_pos same]
    · rw [if_neg same]
      exact m.bounded b le
  failAt := m.failAt

/-- The memory in which no further allocation is set to fail. -/
def disarm (m : Memory C) : Memory C := { m with failAt := none }

theorem lt_next_of_get {m : Memory C} {a : Addr} {c : C} (cell : m.get a = some c) : a < m.next := by
  by_contra beyond
  rw [m.bounded a (not_lt.mp beyond)] at cell
  exact Option.some_ne_none c cell.symm

@[simp] theorem get_next (m : Memory C) : m.get m.next = none := m.bounded _ le_rfl

@[simp] theorem alloc_next (m : Memory C) (c : C) : (m.alloc c).next = m.next + 1 := rfl

@[simp] theorem alloc_failAt (m : Memory C) (c : C) : (m.alloc c).failAt = m.failAt := rfl

@[simp] theorem set_next (m : Memory C) (a : Addr) (c : C) : (m.set a c).next = m.next := rfl

@[simp] theorem set_failAt (m : Memory C) (a : Addr) (c : C) : (m.set a c).failAt = m.failAt := rfl

@[simp] theorem free_next (m : Memory C) (a : Addr) : (m.free a).next = m.next := rfl

@[simp] theorem free_failAt (m : Memory C) (a : Addr) : (m.free a).failAt = m.failAt := rfl

@[simp] theorem alloc_get_next (m : Memory C) (c : C) : (m.alloc c).get m.next = some c := if_pos rfl

theorem alloc_get_of_ne (m : Memory C) (c : C) {a : Addr} (other : a ≠ m.next) :
    (m.alloc c).get a = m.get a := if_neg other

/-- A live cell is not the one a new allocation gets. -/
theorem alloc_get_of_get {m : Memory C} {a : Addr} {c : C} (cell : m.get a = some c) (fresh : C) :
    (m.alloc fresh).get a = some c := by
  rw [alloc_get_of_ne m fresh (lt_next_of_get cell).ne, cell]

theorem set_get_of_ne (m : Memory C) (c : C) {a b : Addr} (other : b ≠ a) :
    (m.set a c).get b = m.get b := if_neg other

theorem set_get_self {m : Memory C} {a : Addr} {old : C} (live : m.get a = some old) (c : C) :
    (m.set a c).get a = some c := by
  simp [set, live]

theorem free_get_of_ne (m : Memory C) {a b : Addr} (other : b ≠ a) :
    (m.free a).get b = m.get b := if_neg other

@[simp] theorem free_get_self (m : Memory C) (a : Addr) : (m.free a).get a = none := if_pos rfl

/-! ### Memories that agree on a set -/

/-- The two memories hold the same cells on `s`. -/
def Same (m m' : Memory C) (s : Set Addr) : Prop := ∀ a ∈ s, m'.get a = m.get a

theorem Same.refl (m : Memory C) (s : Set Addr) : Same m m s := fun _ _ => rfl

theorem Same.trans {m m' m'' : Memory C} {s : Set Addr} (one : Same m m' s) (two : Same m' m'' s) :
    Same m m'' s :=
  fun a member => (two a member).trans (one a member)

theorem Same.mono {m m' : Memory C} {s t : Set Addr} (same : Same m m' t) (sub : s ⊆ t) :
    Same m m' s :=
  fun a member => same a (sub member)

theorem Same.get {m m' : Memory C} {s : Set Addr} (same : Same m m' s) {a : Addr} (member : a ∈ s) :
    m'.get a = m.get a :=
  same a member

/-! ### Frames -/

/-- **The frame of a computation that owns `own`.** Allocation only moves on, the fault plan stays,
and every other allocated cell is unchanged. -/
structure Keeps (m m' : Memory C) (own : Set Addr) : Prop where
  next_le : m.next ≤ m'.next
  failAt : m'.failAt = m.failAt
  get : ∀ a ∉ own, a < m.next → m'.get a = m.get a

/-- The addresses allocated between two memories. -/
def fresh (m m' : Memory C) : Set Addr := {a | m.next ≤ a ∧ a < m'.next}

theorem Keeps.refl (m : Memory C) (own : Set Addr) : Keeps m m own :=
  ⟨le_rfl, rfl, fun _ _ _ => rfl⟩

theorem Keeps.mono {m m' : Memory C} {s t : Set Addr} (keeps : Keeps m m' s) (sub : s ⊆ t) :
    Keeps m m' t :=
  ⟨keeps.next_le, keeps.failAt, fun a outside lt => keeps.get a (fun member => outside (sub member)) lt⟩

theorem Keeps.trans {m m' m'' : Memory C} {own own' : Set Addr} (one : Keeps m m' own)
    (two : Keeps m' m'' own') (sub : ∀ a ∈ own', a ∈ own ∨ m.next ≤ a) : Keeps m m'' own := by
  refine ⟨one.next_le.trans two.next_le, two.failAt.trans one.failAt, fun a outside lt => ?_⟩
  have outside' : a ∉ own' := fun member =>
    (sub a member).elim outside fun beyond => absurd lt (not_lt.mpr beyond)
  rw [two.get a outside' (lt_of_lt_of_le lt one.next_le), one.get a outside lt]

theorem keeps_alloc (m : Memory C) (c : C) (own : Set Addr) : Keeps m (m.alloc c) own :=
  ⟨Nat.le_succ _, rfl, fun _ _ lt => alloc_get_of_ne m c lt.ne⟩

theorem keeps_set (m : Memory C) {a : Addr} (c : C) {own : Set Addr} (member : a ∈ own) :
    Keeps m (m.set a c) own :=
  ⟨le_rfl, rfl, fun _ outside _ => set_get_of_ne m c fun same => outside (same ▸ member)⟩

theorem keeps_free (m : Memory C) {a : Addr} {own : Set Addr} (member : a ∈ own) :
    Keeps m (m.free a) own :=
  ⟨le_rfl, rfl, fun _ outside _ => free_get_of_ne m fun same => outside (same ▸ member)⟩

/-- A set that is allocated and not owned keeps its cells. -/
theorem Keeps.same {m m' : Memory C} {own s : Set Addr} (keeps : Keeps m m' own)
    (apart : Disjoint own s) (live : ∀ a ∈ s, a < m.next) : Same m m' s :=
  fun a member => keeps.get a (fun inside => Set.disjoint_left.mp apart inside member) (live a member)

/-! ### What is owned afterwards -/

/-- **What a computation that owns `own` may own afterwards**: old addresses and new ones. Each of
these that it does not own any more is free. -/
structure Renews (m m' : Memory C) (own own' : Set Addr) : Prop where
  within : ∀ a ∈ own', a ∈ own ∨ m.next ≤ a
  kept : ∀ a, a ∈ own ∨ m.next ≤ a → m'.get a ≠ none → a ∈ own'

/-- A computation that leaves every cell as it was renews what it owns. -/
theorem Renews.of_same {m m' : Memory C} (own : Set Addr) (same : ∀ a, m'.get a = m.get a) :
    Renews m m' own own :=
  ⟨fun _ inside => .inl inside, fun a inside live =>
    inside.resolve_right fun beyond => live ((same a).trans (m.bounded a beyond))⟩

theorem Renews.refl (m : Memory C) (own : Set Addr) : Renews m m own own :=
  Renews.of_same own fun _ => rfl

theorem Renews.trans {m m' m'' : Memory C} {own own' own'' : Set Addr} (one : Renews m m' own own')
    (two : Renews m' m'' own' own'') (keeps : Keeps m' m'' own') (le : m.next ≤ m'.next) :
    Renews m m'' own own'' := by
  refine ⟨fun a inside => ?_, fun a inside live => ?_⟩
  · rcases two.within a inside with old | new
    · exact one.within a old
    · exact .inr (le.trans new)
  · by_cases old : a ∈ own'
    · exact two.kept a (.inl old) live
    · by_cases new : m'.next ≤ a
      · exact two.kept a (.inr new) live
      · rw [keeps.get a old (not_le.mp new)] at live
        exact absurd (one.kept a inside live) old

/-- A computation that takes no new address renews what it owns. -/
theorem Renews.of_next {m m' : Memory C} (own : Set Addr) (next : m'.next = m.next) :
    Renews m m' own own :=
  ⟨fun _ inside => .inl inside, fun a inside live =>
    inside.resolve_right fun beyond => live (m'.bounded a (next.trans_le beyond))⟩

/-- A computation that takes one new address owns it. -/
theorem Renews.of_next_succ {m m' : Memory C} (own : Set Addr) (next : m'.next = m.next + 1) :
    Renews m m' own (own ∪ {m.next}) := by
  refine ⟨fun a inside => inside.imp id fun same => same.ge, fun a inside live => ?_⟩
  refine inside.imp id fun beyond => ?_
  by_contra other
  have lt : m.next < a := lt_of_le_of_ne beyond fun same => other same.symm
  exact live (m'.bounded a (next.trans_le lt))

/-- What has been freed need not be owned any more. -/
theorem Renews.drop {m m' : Memory C} {own own' own'' : Set Addr} (renews : Renews m m' own own')
    (sub : own'' ⊆ own') (gone : ∀ a ∈ own', a ∉ own'' → m'.get a = none) : Renews m m' own own'' := by
  refine ⟨fun a inside => renews.within a (sub inside), fun a inside live => ?_⟩
  by_contra outside
  exact live (gone a (renews.kept a inside live) outside)

/-- Other addresses may be owned all the time. -/
theorem Renews.extend {m m' : Memory C} {own own' : Set Addr} (renews : Renews m m' own own')
    (other : Set Addr) : Renews m m' (other ∪ own) (other ∪ own') := by
  refine ⟨fun a inside => ?_, fun a inside live => ?_⟩
  · rcases inside with theirs | mine
    · exact .inl (Or.inl theirs)
    · exact (renews.within a mine).imp Or.inr id
  · by_cases theirs : a ∈ other
    · exact Or.inl theirs
    · exact Or.inr (renews.kept a (inside.imp (fun old => old.resolve_left theirs) id) live)

/-- What is owned afterwards is apart from what is older and not owned before. -/
theorem Renews.disjoint {m m' : Memory C} {own own' other : Set Addr} (renews : Renews m m' own own')
    (apart : Disjoint own other) (old : ∀ a ∈ other, a < m.next) : Disjoint own' other :=
  Set.disjoint_left.mpr fun a inside inside' => (renews.within a inside).elim
    (fun before => Set.disjoint_left.mp apart before inside') fun new => absurd (old a inside') new.not_gt

/-! ### Deleting everything in a set -/

/-- The cells in a set are freed and nothing else changes. -/
structure Wipes (m m' : Memory C) (own : Set Addr) : Prop where
  next : m'.next = m.next
  failAt : m'.failAt = m.failAt
  gone : ∀ a ∈ own, m'.get a = none
  get : ∀ a ∉ own, m'.get a = m.get a

theorem Wipes.empty (m : Memory C) : Wipes m m ∅ := ⟨rfl, rfl, fun _ none => none.elim, fun _ _ => rfl⟩

theorem wipes_free (m : Memory C) (a : Addr) : Wipes m (m.free a) {a} where
  next := rfl
  failAt := rfl
  gone := by
    rintro _ rfl
    exact free_get_self m _
  get _ outside := free_get_of_ne m outside

theorem Wipes.trans {m m' m'' : Memory C} {s t : Set Addr} (one : Wipes m m' s)
    (two : Wipes m' m'' t) : Wipes m m'' (s ∪ t) := by
  refine ⟨two.next.trans one.next, two.failAt.trans one.failAt, fun a inside => ?_,
    fun a outside => ?_⟩
  · by_cases later : a ∈ t
    · exact two.gone a later
    · rw [two.get a later, one.gone a (inside.resolve_right later)]
  · rw [two.get a fun later => outside (Or.inr later), one.get a fun first => outside (Or.inl first)]

theorem Wipes.keeps {m m' : Memory C} {own : Set Addr} (wipes : Wipes m m' own) : Keeps m m' own :=
  ⟨wipes.next.ge, wipes.failAt, fun a outside _ => wipes.get a outside⟩

/-- A set that is not freed keeps its cells. -/
theorem Wipes.same {m m' : Memory C} {own s : Set Addr} (wipes : Wipes m m' own)
    (apart : Disjoint own s) : Same m m' s :=
  fun a member => wipes.get a fun inside => Set.disjoint_left.mp apart inside member

end Memory

end CppArt
