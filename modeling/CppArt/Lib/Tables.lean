/-
**Tables: partial maps keyed by words, cut along common prefixes.**

A `Table α n β` assigns values to some of the words of length `n`. A node of a radix tree stands for
the part of a table whose words share a prefix, and its children for the parts that continue with
one letter each:

* `under m w d` — the entries whose words agree with `w` on the first `d` letters;
* `fiber m r a` — the entries whose words have letter `a` at position `r`.

`fiber_under` joins the two: if everything below `(w, d)` agrees up to `r`, the fiber of `w`'s own
letter is what lies below `(w, r + 1)`. `size` counts the entries; `put` and `drop` change one.
-/

import CppArt.Lib.Words

namespace CppArt

/-- A partial map from words to values. -/
abbrev Table (α : Type) (n : ℕ) (β : Type) := Word α n → Option β

namespace Table

variable {α β γ : Type} {n : ℕ}

/-- The words that have an entry. -/
def dom (m : Table α n β) : Set (Word α n) := {w | m w ≠ none}

@[simp] theorem mem_dom {m : Table α n β} {w : Word α n} : w ∈ dom m ↔ m w ≠ none := Iff.rfl

instance (m : Table α n β) (w : Word α n) : Decidable (w ∈ dom m) :=
  decidable_of_iff ((m w).isSome = true) Option.isSome_iff_ne_none

theorem mem_dom_of_eq_some {m : Table α n β} {w : Word α n} {x : β} (entry : m w = some x) :
    w ∈ dom m := by
  simp [entry]

theorem exists_of_mem_dom {m : Table α n β} {w : Word α n} (member : w ∈ dom m) :
    ∃ x, m w = some x :=
  Option.ne_none_iff_exists'.mp member

/-- The table with no entries. -/
def empty : Table α n β := fun _ => none

@[simp] theorem empty_apply (w : Word α n) : (empty : Table α n β) w = none := rfl

@[simp] theorem dom_empty : dom (empty : Table α n β) = ∅ := by
  ext w
  simp

theorem eq_empty_iff {m : Table α n β} : m = empty ↔ dom m = ∅ := by
  constructor
  · rintro rfl
    exact dom_empty
  · intro none
    funext w
    have outside : w ∉ dom m := by simp [none]
    simpa using outside

section Decidable

variable [DecidableEq α]

/-- The table with one entry. -/
def single (w : Word α n) (x : β) : Table α n β := fun v => if v = w then some x else none

@[simp] theorem single_self (w : Word α n) (x : β) : single w x w = some x := if_pos rfl

theorem single_apply (w v : Word α n) (x : β) :
    single w x v = if v = w then some x else none := rfl

@[simp] theorem dom_single (w : Word α n) (x : β) : dom (single w x) = {w} := by
  ext v
  simp [single_apply]

/-- The table with the entry of one word set. -/
def put (m : Table α n β) (w : Word α n) (x : β) : Table α n β :=
  fun v => if v = w then some x else m v

/-- The table with the entry of one word removed. -/
def drop (m : Table α n β) (w : Word α n) : Table α n β := fun v => if v = w then none else m v

@[simp] theorem put_self (m : Table α n β) (w : Word α n) (x : β) : put m w x w = some x := if_pos rfl

theorem put_of_ne (m : Table α n β) {v w : Word α n} (x : β) (other : v ≠ w) :
    put m w x v = m v := if_neg other

@[simp] theorem drop_self (m : Table α n β) (w : Word α n) : drop m w w = none := if_pos rfl

theorem drop_of_ne (m : Table α n β) {v w : Word α n} (other : v ≠ w) : drop m w v = m v :=
  if_neg other

theorem dom_put (m : Table α n β) (w : Word α n) (x : β) : dom (put m w x) = insert w (dom m) := by
  ext v
  by_cases same : v = w
  · simp [same]
  · simp [put_of_ne m x same, same]

theorem dom_drop (m : Table α n β) (w : Word α n) : dom (drop m w) = dom m \ {w} := by
  ext v
  by_cases same : v = w
  · simp [same]
  · simp [drop_of_ne m same, same]

theorem put_empty (w : Word α n) (x : β) : put empty w x = single w x := rfl

theorem drop_of_eq_none {m : Table α n β} {w : Word α n} (absent : m w = none) : drop m w = m := by
  funext v
  by_cases same : v = w
  · rw [same, drop_self, absent]
  · exact drop_of_ne m same

/-- A table whose words are all `w` has one entry or none. -/
theorem eq_single_of_forall {m : Table α n β} {w : Word α n} {x : β} (entry : m w = some x)
    (only : ∀ v ∈ dom m, v = w) : m = single w x := by
  funext v
  by_cases same : v = w
  · rw [same, entry, single_self]
  · rw [single_apply, if_neg same]
    by_contra present
    exact same (only v present)

end Decidable

/-! ### The number of entries -/

/-- The number of entries. -/
noncomputable def size (m : Table α n β) : ℕ := (dom m).ncard

@[simp] theorem size_empty : size (empty : Table α n β) = 0 := by simp [size]

section Size

variable [DecidableEq α] [Finite α]

theorem size_put_of_eq_none {m : Table α n β} {w : Word α n} (absent : m w = none) (x : β) :
    size (put m w x) = size m + 1 := by
  rw [size, dom_put, Set.ncard_insert_of_notMem (by simp [absent])]
  rfl

theorem size_drop_of_mem {m : Table α n β} {w : Word α n} (present : w ∈ dom m) :
    size (drop m w) + 1 = size m := by
  rw [size, dom_drop, Set.ncard_sdiff_singleton_add_one present]
  rfl

omit [DecidableEq α] in
theorem size_pos_of_mem {m : Table α n β} {w : Word α n} (present : w ∈ dom m) : 0 < size m :=
  (Set.ncard_pos).mpr ⟨w, present⟩

end Size

/-! ### Restriction to a prefix and to a letter -/

section Restrict

variable [Inhabited α] [DecidableEq α]

/-- The entries whose words agree with `w` on the first `d` letters. -/
def under (m : Table α n β) (w : Word α n) (d : ℕ) : Table α n β :=
  fun v => if Word.Agree d w v then m v else none

/-- The entries whose words have letter `a` at position `r`. -/
def fiber (m : Table α n β) (r : ℕ) (a : α) : Table α n β :=
  fun v => if v.letter r = a then m v else none

theorem under_of_agree {m : Table α n β} {w v : Word α n} {d : ℕ} (agree : Word.Agree d w v) :
    under m w d v = m v := if_pos agree

theorem under_of_not_agree {m : Table α n β} {w v : Word α n} {d : ℕ}
    (apart : ¬ Word.Agree d w v) : under m w d v = none := if_neg apart

@[simp] theorem under_self (m : Table α n β) (w : Word α n) (d : ℕ) : under m w d w = m w :=
  under_of_agree (Word.Agree.refl d w)

theorem mem_dom_under {m : Table α n β} {w v : Word α n} {d : ℕ} :
    v ∈ dom (under m w d) ↔ Word.Agree d w v ∧ v ∈ dom m := by
  by_cases agree : Word.Agree d w v
  · simp [under_of_agree agree, agree]
  · simp [under_of_not_agree agree, agree]

theorem mem_dom_fiber {m : Table α n β} {v : Word α n} {r : ℕ} {a : α} :
    v ∈ dom (fiber m r a) ↔ v.letter r = a ∧ v ∈ dom m := by
  by_cases letter : v.letter r = a <;> simp [fiber, letter]

theorem fiber_of_letter {m : Table α n β} {v : Word α n} {r : ℕ} {a : α} (letter : v.letter r = a) :
    fiber m r a v = m v := if_pos letter

@[simp] theorem under_zero (m : Table α n β) (w : Word α n) : under m w 0 = m := by
  funext v
  exact under_of_agree (Word.agree_zero w v)

/-- **Descending one letter.** If everything below `(w, d)` agrees with `w` up to `r`, the fiber of
`w`'s letter at `r` is what lies below `(w, r + 1)`. -/
theorem fiber_under {m : Table α n β} {w : Word α n} {d r : ℕ} (le : d ≤ r)
    (shared : ∀ v ∈ dom (under m w d), Word.Agree r w v) :
    fiber (under m w d) r (w.letter r) = under m w (r + 1) := by
  funext v
  by_cases agree : Word.Agree (r + 1) w v
  · have split := Word.agree_succ.mp agree
    rw [fiber_of_letter split.2.symm, under_of_agree (split.1.mono le), under_of_agree agree]
  · rw [under_of_not_agree agree]
    by_contra present
    have member : v ∈ dom (fiber (under m w d) r (w.letter r)) := present
    rw [mem_dom_fiber] at member
    exact agree (Word.agree_succ.mpr ⟨shared v member.2, member.1.symm⟩)

/-- The entries of a table are those of its fibers. -/
theorem sum_size_fiber [Fintype α] (m : Table α n β) (r : ℕ) : ∑ a, size (fiber m r a) = size m := by
  classical
  have finite : (dom m).Finite := Set.toFinite _
  have part : ∀ a, size (fiber m r a) = (finite.toFinset.filter fun w => w.letter r = a).card := by
    intro a
    rw [size, ← Set.ncard_coe_finset]
    refine congrArg Set.ncard (Set.ext fun w => ?_)
    rw [mem_dom_fiber, Finset.mem_coe, Finset.mem_filter, Set.Finite.mem_toFinset, and_comm]
  rw [size, Set.ncard_eq_toFinset_card (dom m) finite,
    Finset.card_eq_sum_card_fiberwise fun w _ => Finset.mem_coe.mpr (Finset.mem_univ (w.letter r))]
  exact Finset.sum_congr rfl fun a _ => part a

/-- The fiber of another letter is not touched by a change below `(w, r + 1)`. -/
theorem fiber_under_congr {m m' : Table α n β} {w : Word α n} {d r : ℕ} {a : α}
    (other : a ≠ w.letter r) (same : ∀ v, ¬ Word.Agree (r + 1) w v → m' v = m v) :
    fiber (under m' w d) r a = fiber (under m w d) r a := by
  funext v
  by_cases letter : v.letter r = a
  · rw [fiber_of_letter letter, fiber_of_letter letter]
    have apart : ¬ Word.Agree (r + 1) w v := fun agree =>
      other (letter.symm.trans (Word.agree_succ.mp agree).2.symm)
    by_cases agree : Word.Agree d w v
    · rw [under_of_agree agree, under_of_agree agree, same v apart]
    · rw [under_of_not_agree agree, under_of_not_agree agree]
  · rw [fiber, fiber, if_neg letter, if_neg letter]

theorem under_put_of_agree {m : Table α n β} {w v : Word α n} {d : ℕ} {x : β}
    (agree : Word.Agree d w v) : under (put m v x) w d = put (under m w d) v x := by
  funext u
  by_cases same : u = v
  · rw [same, put_self, under_of_agree agree, put_self]
  · rw [put_of_ne _ x same]
    by_cases agreeU : Word.Agree d w u
    · rw [under_of_agree agreeU, under_of_agree agreeU, put_of_ne _ x same]
    · rw [under_of_not_agree agreeU, under_of_not_agree agreeU]

theorem under_drop {m : Table α n β} {w v : Word α n} {d : ℕ} :
    under (drop m v) w d = drop (under m w d) v := by
  funext u
  by_cases agreeU : Word.Agree d w u
  · by_cases same : u = v
    · rw [same, drop_self, under_of_agree (same ▸ agreeU), drop_self]
    · rw [drop_of_ne _ same, under_of_agree agreeU, under_of_agree agreeU, drop_of_ne _ same]
  · rw [under_of_not_agree agreeU]
    by_cases same : u = v
    · rw [same, drop_self]
    · rw [drop_of_ne _ same, under_of_not_agree agreeU]

theorem fiber_put_of_ne {m : Table α n β} {v : Word α n} {r : ℕ} {a : α} {x : β}
    (other : v.letter r ≠ a) : fiber (put m v x) r a = fiber m r a := by
  funext u
  by_cases letter : u.letter r = a
  · rw [fiber_of_letter letter, fiber_of_letter letter,
      put_of_ne _ x (by rintro rfl; exact other letter)]
  · rw [fiber, fiber, if_neg letter, if_neg letter]

end Restrict

end Table

end CppArt
