/-
**Maps kept as tables over words.**

A sorted map is kept by spelling its keys: `Spelling less word` says that the words are distinct and in
the order of the keys. `Spells word m t` says that the table `t` has, under the word of each key, the key
with its value; the operations on tables are then those on maps. `SpellsSet word σ t` says the same of a
set, where a key is its own value.
-/

import CppArt.Lib.Tables

namespace CppArt

/-- A map of keys to values, as its user thinks of it. -/
abbrev KeyMap (κ τ : Type) := κ → Option τ

/-- The value of a new key is set; a key that is there keeps its value. -/
def KeyMap.insert {κ τ : Type} [DecidableEq κ] (f : KeyMap κ τ) (entry : κ × τ) : KeyMap κ τ :=
  if f entry.1 = none then Function.update f entry.1 (some entry.2) else f

variable {α κ τ : Type} {n : ℕ}

/-- **The keys are spelt in order.** -/
structure Spelling [Inhabited α] [LinearOrder α] (less : κ → κ → Prop) (word : κ → Word α n) : Prop where
  injective : Function.Injective word
  lt_iff : ∀ x y, word x < word y ↔ less x y

/-- **A table spells a map.** -/
def Spells (word : κ → Word α n) (f : KeyMap κ τ) (m : Table α n (κ × τ)) : Prop :=
  ∀ w k x, m w = some (k, x) ↔ word k = w ∧ f k = some x

namespace Spells

variable {word : κ → Word α n} {f : KeyMap κ τ} {m : Table α n (κ × τ)}

theorem empty (word : κ → Word α n) : Spells word (fun _ => none) (Table.empty : Table α n (κ × τ)) := by
  intro w k x
  simp

/-- **The entry of a key** is the key with its value. -/
theorem apply (injective : Function.Injective word) (spells : Spells word f m) (k : κ) :
    m (word k) = (f k).map fun x => (k, x) := by
  rcases value : f k with _ | x
  · rw [Option.map_none]
    rcases entry : m (word k) with _ | ⟨u, y⟩
    · rfl
    · obtain ⟨same, stored⟩ := (spells (word k) u y).mp entry
      rw [injective same, value] at stored
      cases stored
  · exact (spells (word k) k x).mpr ⟨rfl, value⟩

theorem apply_eq_none (injective : Function.Injective word) (spells : Spells word f m) (k : κ) :
    m (word k) = none ↔ f k = none := by
  rw [spells.apply injective, Option.map_eq_none_iff]

/-- The words of the table are those of the keys. -/
theorem dom_eq (injective : Function.Injective word) (spells : Spells word f m) :
    Table.dom m = word '' {k | f k ≠ none} := by
  ext w
  constructor
  · intro member
    obtain ⟨⟨k, x⟩, entry⟩ := Table.exists_of_mem_dom member
    obtain ⟨same, value⟩ := (spells w k x).mp entry
    exact ⟨k, by simp [value], same⟩
  · rintro ⟨k, present, rfl⟩
    rw [Table.mem_dom, Ne, spells.apply_eq_none injective]
    exact present

theorem size_eq (injective : Function.Injective word) (spells : Spells word f m) :
    Table.size m = {k | f k ≠ none}.ncard := by
  rw [Table.size, spells.dom_eq injective, Set.ncard_image_of_injective _ injective]

variable [DecidableEq α] [DecidableEq κ]

/-- **A value is set.** -/
theorem put (injective : Function.Injective word) (spells : Spells word f m) (k : κ) (x : τ) :
    Spells word (Function.update f k (some x)) (Table.put m (word k) (k, x)) := by
  intro w u y
  by_cases same : w = word k
  · subst same
    rw [Table.put_self, Option.some.injEq, Prod.mk.injEq]
    constructor
    · rintro ⟨rfl, rfl⟩
      exact ⟨rfl, Function.update_self ..⟩
    · rintro ⟨equal, value⟩
      obtain rfl := injective equal
      rw [Function.update_self, Option.some.injEq] at value
      exact ⟨rfl, value⟩
  · rw [Table.put_of_ne m _ same, spells w u y]
    refine and_congr_right fun equal => ?_
    have other : u ≠ k := fun equal' => same (equal' ▸ equal.symm)
    rw [Function.update_of_ne other]

/-- **A key is removed.** -/
theorem drop (injective : Function.Injective word) (spells : Spells word f m) (k : κ) :
    Spells word (Function.update f k none) (Table.drop m (word k)) := by
  intro w u y
  by_cases same : w = word k
  · subst same
    rw [Table.drop_self]
    constructor
    · intro entry
      cases entry
    · rintro ⟨equal, value⟩
      obtain rfl := injective equal
      rw [Function.update_self] at value
      cases value
  · rw [Table.drop_of_ne m same, spells w u y]
    refine and_congr_right fun equal => ?_
    have other : u ≠ k := fun equal' => same (equal' ▸ equal.symm)
    rw [Function.update_of_ne other]

end Spells

/-! ### Sets -/

/-- **A table spells a set.** -/
def SpellsSet (word : κ → Word α n) (σ : Set κ) (m : Table α n κ) : Prop :=
  ∀ w k, m w = some k ↔ word k = w ∧ k ∈ σ

namespace SpellsSet

variable {word : κ → Word α n} {σ : Set κ} {m : Table α n κ}

theorem empty (word : κ → Word α n) : SpellsSet word ∅ (Table.empty : Table α n κ) := by
  intro w k
  simp

/-- A key is in the set when its word has an entry, and that is the key. -/
theorem apply_of_mem (spells : SpellsSet word σ m) {k : κ} (member : k ∈ σ) : m (word k) = some k :=
  (spells (word k) k).mpr ⟨rfl, member⟩

theorem apply_eq_none (injective : Function.Injective word) (spells : SpellsSet word σ m) (k : κ) :
    m (word k) = none ↔ k ∉ σ := by
  constructor
  · intro absent member
    rw [spells.apply_of_mem member] at absent
    cases absent
  · intro outside
    rcases entry : m (word k) with _ | u
    · rfl
    · obtain ⟨same, member⟩ := (spells (word k) u).mp entry
      exact absurd (injective same ▸ member) outside

/-- The words of the table are those of the set. -/
theorem dom_eq (spells : SpellsSet word σ m) : Table.dom m = word '' σ := by
  ext w
  constructor
  · intro member
    obtain ⟨k, entry⟩ := Table.exists_of_mem_dom member
    obtain ⟨same, inside⟩ := (spells w k).mp entry
    exact ⟨k, inside, same⟩
  · rintro ⟨k, inside, rfl⟩
    exact Table.mem_dom_of_eq_some (spells.apply_of_mem inside)

theorem size_eq (injective : Function.Injective word) (spells : SpellsSet word σ m) :
    Table.size m = σ.ncard := by
  rw [Table.size, spells.dom_eq, Set.ncard_image_of_injective _ injective]

variable [DecidableEq α]

/-- **A key is put in.** -/
theorem put (injective : Function.Injective word) (spells : SpellsSet word σ m) (k : κ) :
    SpellsSet word (insert k σ) (Table.put m (word k) k) := by
  intro w u
  by_cases same : w = word k
  · subst same
    rw [Table.put_self, Option.some.injEq]
    constructor
    · rintro rfl
      exact ⟨rfl, Set.mem_insert _ _⟩
    · rintro ⟨equal, -⟩
      exact (injective equal).symm
  · rw [Table.put_of_ne m _ same, spells w u]
    refine and_congr_right fun equal => ?_
    have other : u ≠ k := fun equal' => same (equal' ▸ equal.symm)
    rw [Set.mem_insert_iff, or_iff_right other]

/-- **A key is taken out.** -/
theorem drop (injective : Function.Injective word) (spells : SpellsSet word σ m) (k : κ) :
    SpellsSet word (σ \ {k}) (Table.drop m (word k)) := by
  intro w u
  by_cases same : w = word k
  · subst same
    rw [Table.drop_self]
    constructor
    · intro entry
      cases entry
    · rintro ⟨equal, -, other⟩
      exact absurd (injective equal) other
  · rw [Table.drop_of_ne m same, spells w u]
    refine and_congr_right fun equal => ?_
    have other : u ≠ k := fun equal' => same (equal' ▸ equal.symm)
    rw [Set.mem_sdiff, Set.mem_singleton_iff, and_iff_left other]

end SpellsSet

end CppArt
