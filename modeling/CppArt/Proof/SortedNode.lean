/-
**`_Node_4` and `_Node_16` are sorted byte maps.**

`WF` says what the member functions rely on: the keys in use are strictly ascending and each has a
child. Under it `find` reads the entries (`find_eq_some`), and every modifying member function keeps
`WF` and changes `find` at one byte (`insert_spec`, `erase_spec`, `updateChildPtr_spec`). The scans
of `insert`, `find`, `successor` and `predecessor` all stop where the key order says
(`scan_spec`, `scanDown_spec`).
-/

import CppArt.Model.Layout

namespace CppArt

/-! ### Moves inside an array -/

theorem memmove_ok {α : Type} {size : ℕ} (a : Vector α size) (first last dest : ℕ)
    (source : last ≤ size) (target : dest + (last - first) ≤ size) :
    ∃ a', memmove a first last dest = .ok a' ∧ ∀ i < size,
      a'[i]? = if dest ≤ i ∧ i < dest + (last - first) then a[first + (i - dest)]? else a[i]? := by
  refine ⟨_, if_pos ⟨source, target⟩, fun i lt => ?_⟩
  rw [Vector.getElem?_ofFn, dif_pos lt]
  by_cases moved : dest ≤ i ∧ i < dest + (last - first)
  · have inside : first + (i - dest) < size := by omega
    simp [moved, inside]
  · simp [moved, lt, Vector.get_eq_getElem]

namespace SortedNode

variable {cap : ℕ}

/-- The key at a position. -/
def key (nd : SortedNode cap) (i : ℕ) : Byte := (nd.keys[i]?).getD 0

/-- The child at a position. -/
def kid (nd : SortedNode cap) (i : ℕ) : Option Addr := (nd.children[i]?).join

/-- **The invariant of a sorted node.** -/
structure WF (nd : SortedNode cap) : Prop where
  le : nd.count ≤ cap
  sorted : ∀ i j, i < j → j < nd.count → nd.key i < nd.key j
  filled : ∀ i < nd.count, nd.kid i ≠ none

/-! ### The scans -/

theorem liveKeys_length {nd : SortedNode cap} (le : nd.count ≤ cap) :
    nd.liveKeys.length = nd.count := by
  simp [liveKeys, le]

theorem liveKeys_getElem {nd : SortedNode cap} {i : ℕ} (inside : i < nd.liveKeys.length) :
    nd.liveKeys[i] = nd.key i := by
  have bound : i < nd.count ∧ i < cap := by simpa [liveKeys] using inside
  simp [liveKeys, key, bound.2]

/-- An upward scan stops at the first key that satisfies the predicate. -/
theorem scan_spec {nd : SortedNode cap} (le : nd.count ≤ cap) (p : Byte → Bool) :
    nd.liveKeys.findIdx p ≤ nd.count ∧ (∀ i < nd.liveKeys.findIdx p, p (nd.key i) = false) ∧
      (nd.liveKeys.findIdx p < nd.count → p (nd.key (nd.liveKeys.findIdx p)) = true) := by
  have length := liveKeys_length le
  refine ⟨length ▸ List.findIdx_le_length, fun i lt => ?_, fun lt => ?_⟩
  · have inside : i < nd.liveKeys.length := lt_of_lt_of_le lt List.findIdx_le_length
    have stepped := List.not_of_lt_findIdx lt
    rw [liveKeys_getElem inside] at stepped
    simpa using stepped
  · have inside : nd.liveKeys.findIdx p < nd.liveKeys.length := length ▸ lt
    have stopped := List.findIdx_getElem (w := inside)
    rwa [liveKeys_getElem inside] at stopped

/-- A downward scan stops at the last key that satisfies the predicate. -/
theorem scanDown_spec {nd : SortedNode cap} (le : nd.count ≤ cap) (p : Byte → Bool) :
    nd.liveKeys.reverse.findIdx p ≤ nd.count ∧
      (∀ i < nd.liveKeys.reverse.findIdx p, p (nd.key (nd.count - 1 - i)) = false) ∧
      (nd.liveKeys.reverse.findIdx p < nd.count →
        p (nd.key (nd.count - 1 - nd.liveKeys.reverse.findIdx p)) = true) := by
  have length : nd.liveKeys.reverse.length = nd.count := by
    rw [List.length_reverse, liveKeys_length le]
  have read : ∀ i (inside : i < nd.liveKeys.reverse.length),
      nd.liveKeys.reverse[i] = nd.key (nd.count - 1 - i) := by
    intro i inside
    rw [List.getElem_reverse, liveKeys_getElem, liveKeys_length le]
  refine ⟨length ▸ List.findIdx_le_length, fun i lt => ?_, fun lt => ?_⟩
  · have inside : i < nd.liveKeys.reverse.length := lt_of_lt_of_le lt List.findIdx_le_length
    have stepped := List.not_of_lt_findIdx lt
    rw [read i inside] at stepped
    simpa using stepped
  · have inside : nd.liveKeys.reverse.findIdx p < nd.liveKeys.reverse.length := length ▸ lt
    have stopped := List.findIdx_getElem (w := inside)
    rwa [read _ inside] at stopped

theorem lowerPos_spec {nd : SortedNode cap} (le : nd.count ≤ cap) (b : Byte) :
    nd.lowerPos b ≤ nd.count ∧ (∀ i < nd.lowerPos b, nd.key i < b) ∧
      (nd.lowerPos b < nd.count → b ≤ nd.key (nd.lowerPos b)) := by
  obtain ⟨bound, before, stop⟩ := scan_spec le fun key => ! decide (key < b)
  refine ⟨bound, fun i lt => by simpa using before i lt, fun lt => ?_⟩
  have stopped := stop lt
  rw [Bool.not_eq_true', decide_eq_false_iff_not] at stopped
  exact not_lt.mp stopped

theorem upperPos_spec {nd : SortedNode cap} (le : nd.count ≤ cap) (b : Byte) :
    nd.upperPos b ≤ nd.count ∧ (∀ i < nd.upperPos b, nd.key i ≤ b) ∧
      (nd.upperPos b < nd.count → b < nd.key (nd.upperPos b)) := by
  obtain ⟨bound, before, stop⟩ := scan_spec le fun key => ! decide (key ≤ b)
  refine ⟨bound, fun i lt => by simpa using before i lt, fun lt => ?_⟩
  have stopped := stop lt
  rw [Bool.not_eq_true', decide_eq_false_iff_not] at stopped
  exact not_le.mp stopped

theorem stepsDown_spec {nd : SortedNode cap} (le : nd.count ≤ cap) (b : Byte) :
    nd.stepsDown b ≤ nd.count ∧ (∀ i < nd.stepsDown b, b ≤ nd.key (nd.count - 1 - i)) ∧
      (nd.stepsDown b < nd.count → nd.key (nd.count - 1 - nd.stepsDown b) < b) := by
  obtain ⟨bound, before, stop⟩ := scanDown_spec le fun key => ! decide (b ≤ key)
  refine ⟨bound, fun i lt => by simpa using before i lt, fun lt => ?_⟩
  have stopped := stop lt
  rw [Bool.not_eq_true', decide_eq_false_iff_not] at stopped
  exact not_le.mp stopped

namespace WF

variable {nd : SortedNode cap} (wf : nd.WF)

include wf

theorem key_le {i j : ℕ} (le : i ≤ j) (lt : j < nd.count) : nd.key i ≤ nd.key j := by
  rcases Nat.eq_or_lt_of_le le with rfl | less
  · exact le_rfl
  · exact (wf.sorted i j less lt).le

theorem key_inj {i j : ℕ} (ltI : i < nd.count) (ltJ : j < nd.count)
    (same : nd.key i = nd.key j) : i = j := by
  rcases lt_trichotomy i j with less | equal | greater
  · exact absurd same (wf.sorted i j less ltJ).ne
  · exact equal
  · exact absurd same (wf.sorted j i greater ltI).ne'

/-- The position of a key in use is where the scan for it stops. -/
theorem lowerPos_key {i : ℕ} (lt : i < nd.count) : nd.lowerPos (nd.key i) = i := by
  obtain ⟨-, before, stop⟩ := lowerPos_spec wf.le (nd.key i)
  rcases lt_trichotomy (nd.lowerPos (nd.key i)) i with less | equal | greater
  · exact absurd (stop (less.trans lt)) (not_le.mpr (wf.sorted _ _ less lt))
  · exact equal
  · exact absurd (before i greater) (lt_irrefl _)

theorem keys_getElem? {i : ℕ} (lt : i < nd.count) : nd.keys[i]? = some (nd.key i) := by
  have inside : i < cap := lt_of_lt_of_le lt wf.le
  simp [key, inside]

/-- **`find` reads the entries.** -/
theorem find_eq_some {b : Byte} {c : Addr} :
    nd.find b = some c ↔ ∃ i < nd.count, nd.key i = b ∧ nd.kid i = some c := by
  simp only [find]
  constructor
  · intro found
    split at found
    · rename_i here
      refine ⟨nd.lowerPos b, here.1, ?_, found⟩
      simp [key, here.2]
    · cases found
  · rintro ⟨i, lt, rfl, child⟩
    simp only [wf.lowerPos_key lt, wf.keys_getElem? lt, lt, and_self, if_true]
    exact child

theorem find_eq_none {b : Byte} : nd.find b = none ↔ ∀ i < nd.count, nd.key i ≠ b := by
  constructor
  · rintro absent i lt rfl
    obtain ⟨c, child⟩ := Option.ne_none_iff_exists'.mp (wf.filled i lt)
    have found := wf.find_eq_some.mpr ⟨i, lt, rfl, child⟩
    rw [absent] at found
    cases found
  · intro different
    by_contra present
    obtain ⟨c, found⟩ := Option.ne_none_iff_exists'.mp present
    obtain ⟨i, lt, same, -⟩ := wf.find_eq_some.mp found
    exact different i lt same

theorem find_key {i : ℕ} (lt : i < nd.count) : nd.find (nd.key i) = nd.kid i := by
  obtain ⟨c, child⟩ := Option.ne_none_iff_exists'.mp (wf.filled i lt)
  rw [child]
  exact wf.find_eq_some.mpr ⟨i, lt, rfl, child⟩

/-- A present byte is found where its scan stops. -/
theorem lowerPos_of_find {b : Byte} {c : Addr} (found : nd.find b = some c) :
    nd.lowerPos b < nd.count ∧ nd.key (nd.lowerPos b) = b ∧ nd.kid (nd.lowerPos b) = some c := by
  obtain ⟨i, lt, rfl, child⟩ := wf.find_eq_some.mp found
  rw [wf.lowerPos_key lt]
  exact ⟨lt, rfl, child⟩

/-- An absent byte is strictly between the keys where its scan stops. -/
theorem lt_key_of_absent {b : Byte} (absent : nd.find b = none) {i : ℕ} (le : nd.lowerPos b ≤ i)
    (lt : i < nd.count) : b < nd.key i := by
  obtain ⟨-, -, stop⟩ := lowerPos_spec wf.le b
  exact lt_of_le_of_ne ((stop (lt_of_le_of_lt le lt)).trans (wf.key_le le lt))
    (Ne.symm (wf.find_eq_none.mp absent i lt))

/-! ### The modifying member functions -/

/-- The arrays after an insertion: the entries from the insertion position on move up by one. -/
theorem insert_arrays {b : Byte} (node : Addr) (room : nd.count < cap) :
    ∃ nd' : SortedNode cap, nd.insert b node = .ok nd' ∧ nd'.count = nd.count + 1 ∧
      ∀ i ≤ nd.count,
        nd'.key i = (if i < nd.lowerPos b then nd.key i else if i = nd.lowerPos b then b
          else nd.key (i - 1)) ∧
        nd'.kid i = (if i < nd.lowerPos b then nd.kid i else if i = nd.lowerPos b then some node
          else nd.kid (i - 1)) := by
  obtain ⟨bound, -, -⟩ := lowerPos_spec wf.le b
  have inside : nd.lowerPos b < cap := lt_of_le_of_lt bound room
  unfold insert
  by_cases shift : nd.lowerPos b < nd.count
  · obtain ⟨keys, movedKeys, readKeys⟩ := memmove_ok nd.keys (nd.lowerPos b)
      nd.count (nd.lowerPos b + 1) wf.le (by omega)
    obtain ⟨children, movedChildren, readChildren⟩ := memmove_ok nd.children
      (nd.lowerPos b) nd.count (nd.lowerPos b + 1) wf.le (by omega)
    refine ⟨⟨nd.count + 1, keys.set (nd.lowerPos b) b, children.set (nd.lowerPos b) (some node)⟩,
      ?_, rfl, fun i le => ?_⟩
    · simp only [shift, if_true, movedKeys, movedChildren, bind, Except.bind, place, inside,
        dif_pos]
    · have small : i < cap := lt_of_le_of_lt le room
      simp only [key, kid, Vector.getElem?_set, readKeys i small, readChildren i small]
      rcases lt_trichotomy i (nd.lowerPos b) with less | equal | greater
      · have above : ¬ nd.lowerPos b + 1 ≤ i := by omega
        have other : nd.lowerPos b ≠ i := by omega
        simp [less, above, other]
      · simp [equal]
      · have moved : nd.lowerPos b + 1 ≤ i ∧ i < nd.lowerPos b + 1 + (nd.count - nd.lowerPos b) := by
          omega
        have source : nd.lowerPos b + (i - (nd.lowerPos b + 1)) = i - 1 := by omega
        have notLess : ¬ i < nd.lowerPos b := by omega
        have other : nd.lowerPos b ≠ i := by omega
        simp [moved, source, notLess, other, Ne.symm other]
  · have last : nd.lowerPos b = nd.count := le_antisymm bound (not_lt.mp shift)
    refine ⟨⟨nd.count + 1, nd.keys.set (nd.lowerPos b) b, nd.children.set (nd.lowerPos b) (some node)⟩,
      ?_, rfl, fun i le => ?_⟩
    · simp only [shift, if_false, place, inside, dif_pos]
    · simp only [key, kid, Vector.getElem?_set]
      rcases Nat.eq_or_lt_of_le le with rfl | less
      · simp [last]
      · have other : nd.lowerPos b ≠ i := by omega
        have before : i < nd.lowerPos b := by omega
        simp [other, before]

/-- **`insert` of an absent byte.** -/
theorem insert_spec {b : Byte} (node : Addr) (room : nd.count < cap)
    (absent : nd.find b = none) :
    ∃ nd' : SortedNode cap, nd.insert b node = .ok nd' ∧ nd'.WF ∧ nd'.count = nd.count + 1 ∧
      ∀ b', nd'.find b' = if b' = b then some node else nd.find b' := by
  obtain ⟨nd', run, count, arrays⟩ := wf.insert_arrays (b := b) node room
  obtain ⟨bound, before, -⟩ := lowerPos_spec wf.le b
  have after := fun i => wf.lt_key_of_absent absent (i := i)
  have wf' : nd'.WF := by
    refine ⟨by omega, fun i j less lt => ?_, fun i lt => ?_⟩
    · rw [(arrays i (by omega)).1, (arrays j (by omega)).1]
      have ascending := wf.sorted
      split_ifs with one two three four five
      · exact ascending i j less (by omega)
      · exact before i one
      · exact ascending i (j - 1) (by omega) (by omega)
      · omega
      · omega
      · exact after (j - 1) (by omega) (by omega)
      · omega
      · omega
      · exact ascending (i - 1) (j - 1) (by omega) (by omega)
    · rw [(arrays i (by omega)).2]
      split_ifs with one two
      · exact wf.filled i (by omega)
      · exact Option.some_ne_none node
      · exact wf.filled (i - 1) (by omega)
  refine ⟨nd', run, wf', count, fun b' => Option.ext fun c => ?_⟩
  rw [wf'.find_eq_some]
  constructor
  · rintro ⟨i, lt, sameKey, sameKid⟩
    rw [(arrays i (by omega)).1] at sameKey
    rw [(arrays i (by omega)).2] at sameKid
    split_ifs at sameKey sameKid with one two
    · rw [if_neg (sameKey ▸ (before i one).ne)]
      exact wf.find_eq_some.mpr ⟨i, by omega, sameKey, sameKid⟩
    · rw [if_pos sameKey.symm]
      exact sameKid
    · rw [if_neg (sameKey ▸ (after (i - 1) (by omega) (by omega)).ne')]
      exact wf.find_eq_some.mpr ⟨i - 1, by omega, sameKey, sameKid⟩
  · intro found
    by_cases same : b' = b
    · rw [if_pos same] at found
      refine ⟨nd.lowerPos b, by omega, ?_, ?_⟩
      · rw [(arrays _ bound).1, if_neg (lt_irrefl _), if_pos rfl, same]
      · rw [(arrays _ bound).2, if_neg (lt_irrefl _), if_pos rfl, found]
    · rw [if_neg same] at found
      obtain ⟨i, lt, sameKey, sameKid⟩ := wf.find_eq_some.mp found
      by_cases low : i < nd.lowerPos b
      · refine ⟨i, by omega, ?_, ?_⟩
        · rw [(arrays i (by omega)).1, if_pos low, sameKey]
        · rw [(arrays i (by omega)).2, if_pos low, sameKid]
      · refine ⟨i + 1, by omega, ?_, ?_⟩
        · rw [(arrays (i + 1) (by omega)).1, if_neg (by omega), if_neg (by omega),
            Nat.add_sub_cancel, sameKey]
        · rw [(arrays (i + 1) (by omega)).2, if_neg (by omega), if_neg (by omega),
            Nat.add_sub_cancel, sameKid]

/-- **`erase` of a present byte.** -/
theorem erase_spec {b : Byte} {c : Addr} (present : nd.find b = some c) :
    ∃ nd' : SortedNode cap, nd.erase b = .ok (some c, nd') ∧ nd'.WF ∧ nd'.count + 1 = nd.count ∧
      ∀ b', nd'.find b' = if b' = b then none else nd.find b' := by
  obtain ⟨inside, keyAt, kidAt⟩ := wf.lowerPos_of_find present
  have le := wf.le
  obtain ⟨keys, movedKeys, readKeys⟩ := memmove_ok nd.keys (nd.lowerPos b + 1)
    nd.count (nd.lowerPos b) wf.le (by omega)
  obtain ⟨children, movedChildren, readChildren⟩ := memmove_ok nd.children
    (nd.lowerPos b + 1) nd.count (nd.lowerPos b) wf.le (by omega)
  let nd' : SortedNode cap := ⟨nd.count - 1, keys, children⟩
  have arrays : ∀ i < nd.count - 1,
      nd'.key i = (if i < nd.lowerPos b then nd.key i else nd.key (i + 1)) ∧
      nd'.kid i = (if i < nd.lowerPos b then nd.kid i else nd.kid (i + 1)) := by
    intro i lt
    simp only [nd', key, kid, readKeys i (by omega), readChildren i (by omega)]
    by_cases less : i < nd.lowerPos b
    · have above : ¬ nd.lowerPos b ≤ i := by omega
      simp [less, above]
    · have moved : nd.lowerPos b ≤ i ∧ i < nd.lowerPos b + (nd.count - (nd.lowerPos b + 1)) := by
        omega
      have source : nd.lowerPos b + 1 + (i - nd.lowerPos b) = i + 1 := by omega
      simp [less, moved, source]
  have wf' : nd'.WF := by
    refine ⟨by show nd.count - 1 ≤ cap; omega, fun i j less lt => ?_, fun i lt => ?_⟩
    · have ltJ : j < nd.count - 1 := lt
      rw [(arrays i (by omega)).1, (arrays j ltJ).1]
      have ascending := wf.sorted
      split_ifs with one two three
      · exact ascending i j less (by omega)
      · exact ascending i (j + 1) (by omega) (by omega)
      · omega
      · exact ascending (i + 1) (j + 1) (by omega) (by omega)
    · have ltI : i < nd.count - 1 := lt
      rw [(arrays i ltI).2]
      split_ifs
      · exact wf.filled i (by omega)
      · exact wf.filled (i + 1) (by omega)
  refine ⟨nd', ?_, wf', Nat.sub_add_cancel (by omega), fun b' => Option.ext fun c' => ?_⟩
  · simp only [erase, inside, if_true, movedKeys, movedChildren, bind, Except.bind]
    exact congrArg (fun kid => Except.ok (kid, nd')) kidAt
  · rw [wf'.find_eq_some]
    constructor
    · rintro ⟨i, lt, sameKey, sameKid⟩
      have ltI : i < nd.count - 1 := lt
      rw [(arrays i ltI).1] at sameKey
      rw [(arrays i ltI).2] at sameKid
      split_ifs at sameKey sameKid with one
      · have other : b' ≠ b := by
          rw [← sameKey, ← keyAt]
          exact (wf.sorted i _ one inside).ne
        rw [if_neg other]
        exact wf.find_eq_some.mpr ⟨i, by omega, sameKey, sameKid⟩
      · have other : b' ≠ b := by
          rw [← sameKey, ← keyAt]
          exact (wf.sorted _ (i + 1) (by omega) (by omega)).ne'
        rw [if_neg other]
        exact wf.find_eq_some.mpr ⟨i + 1, by omega, sameKey, sameKid⟩
    · intro found
      by_cases same : b' = b
      · rw [if_pos same] at found
        cases found
      · rw [if_neg same] at found
        obtain ⟨i, lt, sameKey, sameKid⟩ := wf.find_eq_some.mp found
        have elsewhere : i ≠ nd.lowerPos b := by
          rintro rfl
          exact same (sameKey.symm.trans keyAt)
        by_cases low : i < nd.lowerPos b
        · refine ⟨i, by show i < nd.count - 1; omega, ?_, ?_⟩
          · rw [(arrays i (by omega)).1, if_pos low, sameKey]
          · rw [(arrays i (by omega)).2, if_pos low, sameKid]
        · refine ⟨i - 1, by show i - 1 < nd.count - 1; omega, ?_, ?_⟩
          · rw [(arrays (i - 1) (by omega)).1, if_neg (by omega), Nat.sub_add_cancel (by omega),
              sameKey]
          · rw [(arrays (i - 1) (by omega)).2, if_neg (by omega), Nat.sub_add_cancel (by omega),
              sameKid]

/-- **`update_child_ptr` of a present byte.** -/
theorem updateChildPtr_spec {b : Byte} {c : Addr} (node : Addr) (present : nd.find b = some c) :
    (nd.updateChildPtr b node).WF ∧ (nd.updateChildPtr b node).count = nd.count ∧
      ∀ b', (nd.updateChildPtr b node).find b' = if b' = b then some node else nd.find b' := by
  obtain ⟨inside, keyAt, -⟩ := wf.lowerPos_of_find present
  have unfolded : nd.updateChildPtr b node
      = { nd with children := nd.children.setIfInBounds (nd.lowerPos b) (some node) } := by
    unfold updateChildPtr
    rw [if_pos ⟨inside, by rw [wf.keys_getElem? inside, keyAt]⟩]
  rw [unfolded]
  set nd' : SortedNode cap :=
    { nd with children := nd.children.setIfInBounds (nd.lowerPos b) (some node) } with nd'Def
  have sameKeys : ∀ i, nd'.key i = nd.key i := fun _ => rfl
  have kids : ∀ i, nd'.kid i = if i = nd.lowerPos b then some node else nd.kid i := by
    intro i
    have within : nd.lowerPos b < cap := lt_of_lt_of_le inside wf.le
    simp only [nd'Def, kid, Vector.getElem?_setIfInBounds]
    by_cases same : nd.lowerPos b = i
    · simp [← same, within]
    · simp [same, Ne.symm same]
  have wf' : nd'.WF := by
    refine ⟨wf.le, wf.sorted, fun i lt => ?_⟩
    rw [kids]
    split_ifs
    · exact Option.some_ne_none node
    · exact wf.filled i lt
  refine ⟨wf', rfl, fun b' => Option.ext fun c' => ?_⟩
  rw [wf'.find_eq_some]
  by_cases same : b' = b
  · rw [if_pos same]
    constructor
    · rintro ⟨i, lt, sameKey, sameKid⟩
      have here : i = nd.lowerPos b := by
        rw [← wf.lowerPos_key (i := i) lt, ← sameKeys i, sameKey, same]
      rwa [kids, if_pos here] at sameKid
    · intro found
      exact ⟨nd.lowerPos b, inside, keyAt.trans same.symm, by rw [kids, if_pos rfl, found]⟩
  · rw [if_neg same, wf.find_eq_some]
    have elsewhere : ∀ i, nd.key i = b' → i ≠ nd.lowerPos b := by
      rintro i sameKey rfl
      exact same (sameKey.symm.trans keyAt)
    constructor
    · rintro ⟨i, lt, sameKey, sameKid⟩
      rw [kids, if_neg (elsewhere i sameKey)] at sameKid
      exact ⟨i, lt, sameKey, sameKid⟩
    · rintro ⟨i, lt, sameKey, sameKid⟩
      exact ⟨i, lt, sameKey, by rw [kids, if_neg (elsewhere i sameKey), sameKid]⟩

/-! ### The children that searches descend into -/

theorem childAt_ok {i : ℕ} (lt : i < nd.count) :
    ∃ c, nd.childAt i = .ok c ∧ nd.find (nd.key i) = some c := by
  obtain ⟨c, child⟩ := Option.ne_none_iff_exists'.mp (wf.filled i lt)
  refine ⟨c, ?_, by rw [wf.find_key lt, child]⟩
  have cell : nd.children[i]? = some (some c) := Option.join_eq_some_iff.mp child
  simp only [childAt, cell]

theorem find_ne_none {b : Byte} (present : nd.find b ≠ none) : ∃ i < nd.count, nd.key i = b := by
  obtain ⟨c, found⟩ := Option.ne_none_iff_exists'.mp present
  obtain ⟨i, lt, same, -⟩ := wf.find_eq_some.mp found
  exact ⟨i, lt, same⟩

theorem minimumChild_spec (nonempty : 0 < nd.count) :
    ∃ b c, nd.minimumChild = .ok c ∧ nd.find b = some c ∧ ∀ b', nd.find b' ≠ none → b ≤ b' := by
  obtain ⟨c, run, found⟩ := wf.childAt_ok nonempty
  refine ⟨nd.key 0, c, run, found, fun b' present => ?_⟩
  obtain ⟨i, lt, rfl⟩ := wf.find_ne_none present
  exact wf.key_le (Nat.zero_le i) lt

theorem maximumChild_spec (nonempty : 0 < nd.count) :
    ∃ b c, nd.maximumChild = .ok c ∧ nd.find b = some c ∧ ∀ b', nd.find b' ≠ none → b' ≤ b := by
  obtain ⟨c, run, found⟩ := wf.childAt_ok (i := nd.count - 1) (by omega)
  refine ⟨nd.key (nd.count - 1), c, ?_, found, fun b' present => ?_⟩
  · rw [maximumChild, if_neg (by omega), run]
  · obtain ⟨i, lt, rfl⟩ := wf.find_ne_none present
    exact wf.key_le (by omega) (by omega)

theorem successorChild_spec (b : Byte) :
    (nd.successorChild b = .ok none ∧ ∀ b', nd.find b' ≠ none → ¬ b < b') ∨
      ∃ b₁ c, nd.successorChild b = .ok (some c) ∧ nd.find b₁ = some c ∧ b < b₁ ∧
        ∀ b', nd.find b' ≠ none → b < b' → b₁ ≤ b' := by
  obtain ⟨-, before, stop⟩ := upperPos_spec wf.le b
  by_cases inside : nd.upperPos b < nd.count
  · obtain ⟨c, run, found⟩ := wf.childAt_ok inside
    refine .inr ⟨nd.key (nd.upperPos b), c, ?_, found, stop inside, fun b' present above => ?_⟩
    · simp only [successorChild, inside, if_true, run, Except.map]
    · obtain ⟨i, lt, rfl⟩ := wf.find_ne_none present
      refine wf.key_le ?_ lt
      by_contra low
      exact absurd (before i (not_le.mp low)) (not_le.mpr above)
  · refine .inl ⟨by simp only [successorChild, inside, if_false], fun b' present above => ?_⟩
    obtain ⟨i, lt, rfl⟩ := wf.find_ne_none present
    exact absurd (before i (lt_of_lt_of_le lt (not_lt.mp inside))) (not_le.mpr above)

theorem predecessorChild_spec (b : Byte) :
    (nd.predecessorChild b = .ok none ∧ ∀ b', nd.find b' ≠ none → ¬ b' < b) ∨
      ∃ b₁ c, nd.predecessorChild b = .ok (some c) ∧ nd.find b₁ = some c ∧ b₁ < b ∧
        ∀ b', nd.find b' ≠ none → b' < b → b' ≤ b₁ := by
  obtain ⟨-, before, stop⟩ := stepsDown_spec wf.le b
  have high : ∀ i < nd.count, nd.count - 1 - i < nd.stepsDown b → b ≤ nd.key i := by
    intro i lt steps
    have key := before (nd.count - 1 - i) steps
    rwa [show nd.count - 1 - (nd.count - 1 - i) = i by omega] at key
  by_cases inside : nd.stepsDown b < nd.count
  · obtain ⟨c, run, found⟩ := wf.childAt_ok (i := nd.count - 1 - nd.stepsDown b) (by omega)
    refine .inr ⟨nd.key (nd.count - 1 - nd.stepsDown b), c, ?_, found, stop inside,
      fun b' present under => ?_⟩
    · simp only [predecessorChild, inside, if_true, run, Except.map]
    · obtain ⟨i, lt, rfl⟩ := wf.find_ne_none present
      refine wf.key_le ?_ (by omega)
      by_contra above
      exact absurd (high i lt (by omega)) (not_le.mpr under)
  · refine .inl ⟨by simp only [predecessorChild, inside, if_false], fun b' present under => ?_⟩
    obtain ⟨i, lt, rfl⟩ := wf.find_ne_none present
    exact absurd (high i lt (by omega)) (not_le.mpr under)

/-- The number of bytes with a child is `_count`. -/
theorem count_eq : nd.count = (Finset.univ.filter fun b => nd.find b ≠ none).card := by
  have image : (Finset.univ.filter fun b => nd.find b ≠ none)
      = (Finset.range nd.count).image nd.key := by
    ext b
    simp only [Finset.mem_filter, Finset.mem_univ, true_and, Finset.mem_image, Finset.mem_range]
    constructor
    · exact fun present => wf.find_ne_none present
    · rintro ⟨i, lt, rfl⟩
      rw [wf.find_key lt]
      exact wf.filled i lt
  rw [image, Finset.card_image_of_injOn, Finset.card_range]
  intro i ltI j ltJ same
  exact wf.key_inj (Finset.mem_coe.mp ltI |> Finset.mem_range.mp)
    (Finset.mem_coe.mp ltJ |> Finset.mem_range.mp) same

end WF

end SortedNode

end CppArt
