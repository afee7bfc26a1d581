/-
**A range moved within an array, element by element.**

`assignEach` assigns the elements of a range one after the other, from the first to the last. If the
destination does not begin inside the range, no element is overwritten before it is read: the destination
gets the elements that the range had at first (`assignEach_getElem?`).
-/

import Mathlib

namespace CppArt

variable {α : Type} {size : ℕ}

/-- `count` elements from `first` on are assigned to the positions from `dest` on, in this order. -/
def assignEach : ℕ → Vector α size → ℕ → ℕ → Vector α size
  | 0, a, _, _ => a
  | count + 1, a, first, dest =>
      match a[first]? with
      | some x => assignEach count (a.setIfInBounds dest x) (first + 1) (dest + 1)
      | none => a

/-- **The precondition of `std::move`**: the destination does not begin inside the range. -/
def Movable (first last dest : ℕ) : Prop := ¬ (first ≤ dest ∧ dest < last)

instance (first last dest : ℕ) : Decidable (Movable first last dest) :=
  inferInstanceAs (Decidable (¬ _))

/-- **A move out of the range's own way** copies the elements as they were. -/
theorem assignEach_getElem? : ∀ (count : ℕ) (a : Vector α size) {first dest : ℕ},
    Movable first (first + count) dest → first + count ≤ size → ∀ i < size,
    (assignEach count a first dest)[i]?
      = if dest ≤ i ∧ i < dest + count then a[first + (i - dest)]? else a[i]?
  | 0, a, first, dest, _, _, i, _ => by
      rw [assignEach, if_neg (by omega)]
  | count + 1, a, first, dest, clear, source, i, lt => by
      have inside : first < size := by omega
      obtain ⟨x, there⟩ : ∃ x, a[first]? = some x := ⟨_, Vector.getElem?_eq_getElem inside⟩
      have next : Movable (first + 1) (first + 1 + count) (dest + 1) := by
        unfold Movable at clear ⊢
        omega
      rw [assignEach, there]
      simp only []
      rw [assignEach_getElem? count _ next (by omega) i lt]
      unfold Movable at clear
      rcases lt_trichotomy i dest with below | rfl | above
      · rw [if_neg (by omega), if_neg (by omega), Vector.getElem?_setIfInBounds, if_neg (by omega)]
      · rw [if_neg (by omega), if_pos (by omega), Vector.getElem?_setIfInBounds, if_pos rfl, if_pos lt,
          Nat.sub_self, Nat.add_zero, there]
      · by_cases moved : i < dest + (count + 1)
        · rw [if_pos (by omega), if_pos (by omega), Vector.getElem?_setIfInBounds, if_neg (by omega)]
          congr 1
          omega
        · rw [if_neg (by omega), if_neg (by omega), Vector.getElem?_setIfInBounds, if_neg (by omega)]

end CppArt
