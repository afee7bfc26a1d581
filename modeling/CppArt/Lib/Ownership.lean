/-
**Objects that own disjoint parts of one memory.**

A `Local` predicate says what an object is in a memory, together with a part that describes it and the
addresses it owns; it depends on no other cell. `Parted` objects are named, each satisfies the predicate
and no two own a common address. `Covered`: every live cell is owned.

* `Parted.change`: objects that change only what they own, and take new addresses, leave the others as
  they were; `Covered.change`: and if they keep what is live, no cell is lost;
* `Parted.put`, `Parted.remove`, `Parted.put_two`: one object or two objects change;
* `Covered.ncard_live`: the number of live cells is the sum over the objects.
-/

import CppArt.Lib.Memory

namespace CppArt

open Memory

/-! ### Live cells -/

/-- The cells allocated and not freed. -/
def Memory.live {C : Type} (m : Memory C) : Set Addr := {a | m.get a ≠ none}

theorem Memory.finite_live {C : Type} (m : Memory C) : m.live.Finite := by
  refine (Set.finite_lt_nat m.next).subset fun a live => ?_
  obtain ⟨c, cell⟩ := Option.ne_none_iff_exists'.mp live
  exact lt_next_of_get cell

/-- An allocation makes one more cell live. -/
theorem Memory.ncard_live_alloc {C : Type} (m : Memory C) (c : C) :
    (m.alloc c).live.ncard = m.live.ncard + 1 := by
  have all : (m.alloc c).live = insert m.next m.live := by
    ext a
    by_cases same : a = m.next
    · exact iff_of_true (by simp [live, same]) (Or.inl same)
    · rw [live, Set.mem_ofPred_eq, alloc_get_of_ne m c same]
      exact (or_iff_right same).symm
  have unused : m.next ∉ m.live := fun (used : m.get m.next ≠ none) => used m.get_next
  rw [all, Set.ncard_insert_of_notMem unused m.finite_live]

/-- A cell that is freed is live no more. -/
theorem Memory.ncard_live_free {C : Type} {m : Memory C} {a : Addr} {c : C} (cell : m.get a = some c) :
    (m.free a).live.ncard + 1 = m.live.ncard := by
  have rest : (m.free a).live = m.live \ {a} := by
    ext b
    by_cases same : b = a
    · refine iff_of_false (fun (used : (m.free a).get b ≠ none) => used ?_) fun used => used.2 same
      rw [same, free_get_self]
    · rw [live, Set.mem_ofPred_eq, free_get_of_ne m same]
      exact (and_iff_left same).symm
  have member : a ∈ m.live := fun none => Option.some_ne_none c (cell.symm.trans none)
  rw [rest, Set.ncard_sdiff_singleton_add_one member m.finite_live]

/-! ### Objects -/

/-- **A predicate on an object** in a memory that depends only on the cells the object owns. -/
structure Local (C X P : Type) where
  Is : Memory C → X → P → Prop
  own : P → Set Addr
  frame : ∀ {m m' : Memory C} {x : X} {p : P}, Is m x p → Same m m' (own p) → m'.failAt = m.failAt →
    Is m' x p
  alive : ∀ {m : Memory C} {x : X} {p : P}, Is m x p → ∀ a ∈ own p, m.get a ≠ none

variable {C X P ι : Type} {L : Local C X P} {m m' : Memory C} {objects objects' : ι → Option X}
  {part part' : ι → P}

/-- The addresses that an object owns, if there is one of that name. -/
def owned (L : Local C X P) (objects : ι → Option X) (part : ι → P) (i : ι) : Set Addr :=
  {a | objects i ≠ none ∧ a ∈ L.own (part i)}

/-- **Each object is what it should be**, and no address has two owners. -/
structure Parted (L : Local C X P) (m : Memory C) (objects : ι → Option X) (part : ι → P) : Prop where
  is : ∀ i x, objects i = some x → L.Is m x (part i)
  apart : ∀ i j, i ≠ j → Disjoint (owned L objects part i) (owned L objects part j)

/-- **Every live cell has an owner.** -/
def Covered (L : Local C X P) (m : Memory C) (objects : ι → Option X) (part : ι → P) : Prop :=
  ∀ a, m.get a ≠ none → ∃ i, a ∈ owned L objects part i

theorem owned_of_some {i : ι} {x : X} (named : objects i = some x) :
    owned L objects part i = L.own (part i) := by
  ext a
  exact and_iff_right (named ▸ Option.some_ne_none x)

theorem owned_of_none {i : ι} (unnamed : objects i = none) : owned L objects part i = ∅ :=
  Set.eq_empty_of_forall_notMem fun _ inside => inside.1 unnamed

theorem owned_congr {i : ι} (object : objects' i = objects i) (same : part' i = part i) :
    owned L objects' part' i = owned L objects part i := by
  rw [owned, owned, object, same]

theorem Parted.live (parted : Parted L m objects part) {i : ι} {a : Addr}
    (inside : a ∈ owned L objects part i) : m.get a ≠ none := by
  obtain ⟨x, named⟩ := Option.ne_none_iff_exists'.mp inside.1
  exact L.alive (parted.is i x named) a inside.2

theorem Parted.lt_next (parted : Parted L m objects part) {i : ι} {a : Addr}
    (inside : a ∈ owned L objects part i) : a < m.next := by
  obtain ⟨c, cell⟩ := Option.ne_none_iff_exists'.mp (parted.live inside)
  exact lt_next_of_get cell

/-- **The live cells are counted object by object.** -/
theorem Covered.ncard_live (covered : Covered L m objects part) (parted : Parted L m objects part)
    {names : Finset ι} (all : ∀ i, i ∈ names ↔ objects i ≠ none) :
    m.live.ncard = ∑ i ∈ names, (owned L objects part i).ncard := by
  have whole : m.live = ⋃ i ∈ (names : Set ι), owned L objects part i := by
    ext a
    rw [Set.mem_iUnion₂]
    constructor
    · intro live
      obtain ⟨i, inside⟩ := covered a live
      exact ⟨i, (all i).mpr inside.1, inside⟩
    · rintro ⟨i, -, inside⟩
      exact parted.live inside
  have finite : ∀ i, (owned L objects part i).Finite := fun i =>
    m.finite_live.subset fun a inside => parted.live inside
  rw [whole, Set.Finite.ncard_biUnion names.finite_toSet (fun i _ => finite i)
    fun i _ j _ differ => parted.apart i j differ, finsum_mem_coe_finset]

/-- **A live cell without an owner** is not counted. -/
theorem Parted.sum_ncard_lt (parted : Parted L m objects part) (names : Finset ι) {a : Addr}
    (live : m.get a ≠ none) (lost : ∀ i, a ∉ owned L objects part i) :
    ∑ i ∈ names, (owned L objects part i).ncard < m.live.ncard := by
  have finite : ∀ i, (owned L objects part i).Finite := fun i =>
    m.finite_live.subset fun a inside => parted.live inside
  rw [← finsum_mem_coe_finset, ← Set.Finite.ncard_biUnion names.finite_toSet (fun i _ => finite i)
    fun i _ j _ differ => parted.apart i j differ]
  refine Set.ncard_lt_ncard ⟨fun b inside => ?_, fun all => ?_⟩ m.finite_live
  · obtain ⟨i, -, mine⟩ := Set.mem_iUnion₂.mp inside
    exact parted.live mine
  · obtain ⟨i, -, mine⟩ := Set.mem_iUnion₂.mp (all live)
    exact lost i mine

/-! ### Changes -/

/-- **Some objects change.** They own afterwards what they owned before and new addresses. -/
theorem Parted.change (parted : Parted L m objects part) (S : Set ι)
    (others : ∀ k ∉ S, objects' k = objects k ∧ part' k = part k)
    (keeps : Keeps m m' (⋃ k ∈ S, owned L objects part k))
    (within : ∀ k ∈ S, ∀ a ∈ owned L objects' part' k,
      a ∈ (⋃ k ∈ S, owned L objects part k) ∨ m.next ≤ a)
    (is : ∀ k ∈ S, ∀ x, objects' k = some x → L.Is m' x (part' k))
    (apart : ∀ k ∈ S, ∀ l ∈ S, k ≠ l →
      Disjoint (owned L objects' part' k) (owned L objects' part' l)) :
    Parted L m' objects' part' := by
  have older : ∀ k ∉ S, owned L objects' part' k = owned L objects part k := fun k outside =>
    owned_congr (others k outside).1 (others k outside).2
  have untouched : ∀ l ∉ S, ∀ a ∈ owned L objects part l, a ∉ ⋃ k ∈ S, owned L objects part k := by
    intro l outside a inside inside'
    obtain ⟨k, member, inside''⟩ := Set.mem_iUnion₂.mp inside'
    have differ : k ≠ l := fun same => outside (same ▸ member)
    exact Set.disjoint_left.mp (parted.apart k l differ) inside'' inside
  have mixed : ∀ k ∈ S, ∀ l ∉ S, Disjoint (owned L objects' part' k) (owned L objects' part' l) := by
    intro k member l outside
    rw [older l outside, Set.disjoint_left]
    intro a inside inside'
    rcases within k member a inside with old | new
    · exact untouched l outside a inside' old
    · exact absurd (parted.lt_next inside') new.not_gt
  constructor
  · intro i x named
    by_cases member : i ∈ S
    · exact is i member x named
    · rw [(others i member).1] at named
      rw [(others i member).2]
      refine L.frame (parted.is i x named) (fun a inside => ?_) keeps.failAt
      have inside' : a ∈ owned L objects part i := owned_of_some named ▸ inside
      exact keeps.get a (untouched i member a inside') (parted.lt_next inside')
  · intro i j differ
    by_cases member : i ∈ S <;> by_cases member' : j ∈ S
    · exact apart i member j member' differ
    · exact mixed i member j member'
    · exact (mixed j member' i member).symm
    · rw [older i member, older j member']
      exact parted.apart i j differ

/-- **No cell is lost** when the objects that change own afterwards what is live. -/
theorem Covered.change (covered : Covered L m objects part) (S : Set ι)
    (others : ∀ k ∉ S, objects' k = objects k ∧ part' k = part k)
    (keeps : Keeps m m' (⋃ k ∈ S, owned L objects part k))
    (kept : ∀ a, a ∈ (⋃ k ∈ S, owned L objects part k) ∨ m.next ≤ a → m'.get a ≠ none →
      ∃ k ∈ S, a ∈ owned L objects' part' k) : Covered L m' objects' part' := by
  intro a live
  by_cases theirs : a ∈ (⋃ k ∈ S, owned L objects part k) ∨ m.next ≤ a
  · obtain ⟨k, -, inside⟩ := kept a theirs live
    exact ⟨k, inside⟩
  · rw [not_or, not_le] at theirs
    rw [keeps.get a theirs.1 theirs.2] at live
    obtain ⟨i, inside⟩ := covered a live
    have outside : i ∉ S := fun member => theirs.1 (Set.mem_iUnion₂.mpr ⟨i, member, inside⟩)
    exact ⟨i, owned_congr (others i outside).1 (others i outside).2 ▸ inside⟩

section Put

variable [DecidableEq ι] {i j : ι} {x y : X} {p q : P}

theorem owned_put : owned L (Function.update objects i (some x)) (Function.update part i p) i = L.own p := by
  rw [owned_of_some (Function.update_self i (some x) objects), Function.update_self]

theorem update_others {S : Set ι} (member : i ∈ S) :
    ∀ k ∉ S, Function.update objects i (some x) k = objects k ∧ Function.update part i p k = part k :=
  fun k outside =>
    have differ : k ≠ i := fun same => outside (same ▸ member)
    ⟨Function.update_of_ne differ _ _, Function.update_of_ne differ _ _⟩

/-- **One object is made or changes.** -/
theorem Parted.put (parted : Parted L m objects part) (keeps : Keeps m m' (owned L objects part i))
    (within : ∀ a ∈ L.own p, a ∈ owned L objects part i ∨ m.next ≤ a) (is : L.Is m' x p) :
    Parted L m' (Function.update objects i (some x)) (Function.update part i p) := by
  refine parted.change {i} (update_others (Set.mem_singleton i)) ?_ ?_ ?_ ?_
  · rw [Set.biUnion_singleton]
    exact keeps
  · rintro k rfl a inside
    rw [owned_put] at inside
    rw [Set.biUnion_singleton]
    exact within a inside
  · rintro k rfl z named
    rw [Function.update_self, Option.some.injEq] at named
    rw [Function.update_self, ← named]
    exact is
  · rintro k rfl l rfl differ
    exact absurd rfl differ

/-- No cell is lost when one object is made or changes. -/
theorem Covered.put (covered : Covered L m objects part) (keeps : Keeps m m' (owned L objects part i))
    (kept : ∀ a, a ∈ owned L objects part i ∨ m.next ≤ a → m'.get a ≠ none → a ∈ L.own p) :
    Covered L m' (Function.update objects i (some x)) (Function.update part i p) := by
  refine covered.change {i} (update_others (Set.mem_singleton i)) ?_ fun a theirs live => ?_
  · rw [Set.biUnion_singleton]
    exact keeps
  · rw [Set.biUnion_singleton] at theirs
    refine ⟨i, rfl, ?_⟩
    rw [owned_put]
    exact kept a theirs live

/-- **One object goes away.** -/
theorem Parted.remove (parted : Parted L m objects part) (keeps : Keeps m m' (owned L objects part i)) :
    Parted L m' (Function.update objects i none) part := by
  refine parted.change {i} (fun k outside => ⟨Function.update_of_ne outside _ _, rfl⟩) ?_ ?_ ?_ ?_
  · rw [Set.biUnion_singleton]
    exact keeps
  · rintro k rfl a inside
    exact absurd (Function.update_self k none objects) inside.1
  · rintro k rfl z named
    rw [Function.update_self] at named
    cases named
  · rintro k rfl l rfl differ
    exact absurd rfl differ

/-- No cell is lost when an object goes away with everything it owned. -/
theorem Covered.remove (covered : Covered L m objects part) (keeps : Keeps m m' (owned L objects part i))
    (gone : ∀ a, a ∈ owned L objects part i ∨ m.next ≤ a → m'.get a = none) :
    Covered L m' (Function.update objects i none) part := by
  refine covered.change {i} (fun k outside => ⟨Function.update_of_ne outside _ _, rfl⟩) ?_
    fun a theirs live => ?_
  · rw [Set.biUnion_singleton]
    exact keeps
  · rw [Set.biUnion_singleton] at theirs
    exact absurd (gone a theirs) live

omit [DecidableEq ι] in
/-- What two objects own. -/
theorem biUnion_two : (⋃ k ∈ ({i, j} : Set ι), owned L objects part k)
    = owned L objects part i ∪ owned L objects part j := by
  rw [Set.biUnion_insert, Set.biUnion_singleton]

theorem owned_put_two (L : Local C X P) (objects : ι → Option X) (part : ι → P) (x y : X) (p q : P)
    (differ : i ≠ j) :
    owned L (Function.update (Function.update objects i (some x)) j (some y))
        (Function.update (Function.update part i p) j q) i = L.own p ∧
      owned L (Function.update (Function.update objects i (some x)) j (some y))
        (Function.update (Function.update part i p) j q) j = L.own q := by
  refine ⟨?_, owned_put⟩
  rw [owned_congr (Function.update_of_ne differ _ _) (Function.update_of_ne differ _ _), owned_put]

theorem update_two_others : ∀ k ∉ ({i, j} : Set ι),
    Function.update (Function.update objects i (some x)) j (some y) k = objects k ∧
      Function.update (Function.update part i p) j q k = part k := by
  intro k outside
  rw [Set.mem_insert_iff, Set.mem_singleton_iff, not_or] at outside
  constructor
  · rw [Function.update_of_ne outside.2, Function.update_of_ne outside.1]
  · rw [Function.update_of_ne outside.2, Function.update_of_ne outside.1]

/-- **Two objects are made or change**, and may exchange what they own. -/
theorem Parted.put_two (parted : Parted L m objects part) (differ : i ≠ j)
    (keeps : Keeps m m' (owned L objects part i ∪ owned L objects part j))
    (within : ∀ a ∈ L.own p ∪ L.own q,
      a ∈ owned L objects part i ∪ owned L objects part j ∨ m.next ≤ a)
    (first : L.Is m' x p) (second : L.Is m' y q) (apart : Disjoint (L.own p) (L.own q)) :
    Parted L m' (Function.update (Function.update objects i (some x)) j (some y))
      (Function.update (Function.update part i p) j q) := by
  obtain ⟨mine, theirs⟩ := owned_put_two L objects part x y p q differ
  refine parted.change {i, j} update_two_others ?_ ?_ ?_ ?_
  · rw [biUnion_two]
    exact keeps
  · rw [biUnion_two]
    rintro k (rfl | rfl) a inside
    · exact within a (Or.inl (mine ▸ inside))
    · exact within a (Or.inr (theirs ▸ inside))
  · rintro k (rfl | rfl) z named
    · rw [Function.update_of_ne differ, Function.update_self, Option.some.injEq] at named
      rw [Function.update_of_ne differ, Function.update_self, ← named]
      exact first
    · rw [Function.update_self, Option.some.injEq] at named
      rw [Function.update_self, ← named]
      exact second
  · rintro k (rfl | rfl) l (rfl | rfl) other
    · exact absurd rfl other
    · rw [mine, theirs]
      exact apart
    · rw [mine, theirs]
      exact apart.symm
    · exact absurd rfl other

/-- No cell is lost when two objects are made or change. -/
theorem Covered.put_two (covered : Covered L m objects part) (differ : i ≠ j)
    (keeps : Keeps m m' (owned L objects part i ∪ owned L objects part j))
    (kept : ∀ a, a ∈ owned L objects part i ∪ owned L objects part j ∨ m.next ≤ a → m'.get a ≠ none →
      a ∈ L.own p ∪ L.own q) :
    Covered L m' (Function.update (Function.update objects i (some x)) j (some y))
      (Function.update (Function.update part i p) j q) := by
  obtain ⟨mine, theirs⟩ := owned_put_two L objects part x y p q differ
  refine covered.change {i, j} update_two_others ?_ fun a old live => ?_
  · rw [biUnion_two]
    exact keeps
  · rw [biUnion_two] at old
    rcases kept a old live with inside | inside
    · exact ⟨i, Set.mem_insert i {j}, mine ▸ inside⟩
    · exact ⟨j, Set.mem_insert_of_mem i rfl, theirs ▸ inside⟩

end Put

end CppArt
