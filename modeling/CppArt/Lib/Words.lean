/-
**Words of fixed length: agreement on a prefix, and the lexicographic order in both directions.**

A `Word α n` is `n` letters of an ordered alphabet `α`. Everything a radix tree decides about its
keys is a statement about common prefixes, so the working notion is `Agree d v w`: the first `d`
letters are the same.

* `exists_first_difference`: two different words have a first position where they differ;
* `lt_iff`: `v < w` exactly when the letter at the first difference is smaller;
* `lexCompare_eq`: comparing letter by letter decides that order;
* `Dir.before`: the same order read forwards and backwards, so that facts about minimum and
  successor are proved once and serve maximum and predecessor.
-/

import Mathlib

namespace CppArt

/-- A word of `n` letters. -/
@[ext]
structure Word (α : Type) (n : ℕ) where
  chunks : Vector α n
deriving DecidableEq

namespace Word

variable {α : Type} [Inhabited α] {n : ℕ}

/-- The letter at a position; past the end of the word it is the default letter. -/
def letter (w : Word α n) (i : ℕ) : α := w.chunks[i]?.getD default

/-- The first `d` letters of the two words are the same. -/
def Agree (d : ℕ) (v w : Word α n) : Prop := ∀ i < d, v.letter i = w.letter i

instance [DecidableEq α] (d : ℕ) (v w : Word α n) : Decidable (Agree d v w) :=
  inferInstanceAs (Decidable (∀ i < d, v.letter i = w.letter i))

theorem letter_of_lt (w : Word α n) {i : ℕ} (lt : i < n) : w.letter i = w.chunks[i] := by
  simp [letter, lt]

theorem letter_of_le (w : Word α n) {i : ℕ} (le : n ≤ i) : w.letter i = default := by
  simp [letter, Vector.getElem?_eq_none le]

theorem chunks_getElem?_of_lt (w : Word α n) {i : ℕ} (lt : i < n) :
    w.chunks[i]? = some (w.letter i) := by
  simp [letter, lt]

instance {α : Type} {n : ℕ} [Finite α] : Finite (Word α n) :=
  Finite.of_injective (fun w : Word α n => fun i : Fin n => w.chunks[i]) fun _ _ same =>
    Word.ext (Vector.ext fun i lt => congrFun same ⟨i, lt⟩)

/-! ### Agreement -/

@[simp] theorem Agree.refl (d : ℕ) (w : Word α n) : Agree d w w := fun _ _ => rfl

theorem Agree.symm {d : ℕ} {v w : Word α n} (agree : Agree d v w) : Agree d w v :=
  fun i lt => (agree i lt).symm

theorem Agree.trans {d : ℕ} {u v w : Word α n} (one : Agree d u v) (two : Agree d v w) :
    Agree d u w :=
  fun i lt => (one i lt).trans (two i lt)

theorem Agree.mono {d e : ℕ} {v w : Word α n} (agree : Agree e v w) (le : d ≤ e) : Agree d v w :=
  fun i lt => agree i (lt_of_lt_of_le lt le)

@[simp] theorem agree_zero (v w : Word α n) : Agree 0 v w := fun _ lt => absurd lt (Nat.not_lt_zero _)

theorem agree_succ {d : ℕ} {v w : Word α n} :
    Agree (d + 1) v w ↔ Agree d v w ∧ v.letter d = w.letter d := by
  constructor
  · exact fun agree => ⟨agree.mono (Nat.le_succ d), agree d (Nat.lt_succ_self d)⟩
  · rintro ⟨agree, same⟩ i lt
    rcases Nat.lt_succ_iff_lt_or_eq.mp lt with below | rfl
    · exact agree i below
    · exact same

/-- Agreement up to `e` is agreement up to `d` and on the letters from `d` on. -/
theorem agree_iff_of_le {d e : ℕ} (le : d ≤ e) {v w : Word α n} :
    Agree e v w ↔ Agree d v w ∧ ∀ i, d ≤ i → i < e → v.letter i = w.letter i := by
  constructor
  · exact fun agree => ⟨agree.mono le, fun i _ lt => agree i lt⟩
  · rintro ⟨agree, rest⟩ i lt
    by_cases below : i < d
    · exact agree i below
    · exact rest i (not_lt.mp below) lt

theorem eq_of_agree {v w : Word α n} (agree : Agree n v w) : v = w := by
  ext i lt
  have same := agree i lt
  rwa [letter_of_lt v lt, letter_of_lt w lt] at same

/-- Agreement on the whole length or beyond is equality. -/
theorem eq_of_agree_of_le {d : ℕ} {v w : Word α n} (agree : Agree d v w) (le : n ≤ d) : v = w :=
  eq_of_agree (agree.mono le)

/-- **The first difference.** Words that agree on `d` letters and are not equal have a first
position at or after `d` where they differ. -/
theorem exists_first_difference_from {d : ℕ} {v w : Word α n} (agree : Agree d v w)
    (different : v ≠ w) : ∃ r, d ≤ r ∧ r < n ∧ Agree r v w ∧ v.letter r ≠ w.letter r := by
  classical
  have some_difference : ∃ r, v.letter r ≠ w.letter r := by
    by_contra none
    push Not at none
    exact different (eq_of_agree fun i _ => none i)
  refine ⟨Nat.find some_difference, ?_, ?_, ?_, Nat.find_spec some_difference⟩
  · by_contra below
    exact Nat.find_spec some_difference (agree _ (not_le.mp below))
  · by_contra beyond
    apply Nat.find_spec some_difference
    rw [letter_of_le v (not_lt.mp beyond), letter_of_le w (not_lt.mp beyond)]
  · exact fun i lt => not_not.mp (Nat.find_min some_difference lt)

theorem exists_first_difference {v w : Word α n} (different : v ≠ w) :
    ∃ r < n, Agree r v w ∧ v.letter r ≠ w.letter r := by
  obtain ⟨r, -, lt, agree, differ⟩ := exists_first_difference_from (agree_zero v w) different
  exact ⟨r, lt, agree, differ⟩

/-! ### The lexicographic order -/

section Order

variable [LinearOrder α]

/-- The word as a point of the lexicographically ordered product. -/
def toProduct (w : Word α n) : Lex (Fin n → α) := toLex fun i => w.chunks[i]

omit [Inhabited α] [LinearOrder α] in
theorem toProduct_injective : Function.Injective (toProduct : Word α n → Lex (Fin n → α)) := by
  intro v w same
  ext i lt
  exact congrFun (toLex_inj.mp same) ⟨i, lt⟩

noncomputable instance : LinearOrder (Word α n) :=
  LinearOrder.lift' toProduct toProduct_injective

/-- **The order is decided at the first difference.** -/
theorem lt_iff {v w : Word α n} :
    v < w ↔ ∃ r < n, Agree r v w ∧ v.letter r < w.letter r := by
  have unfolded : v < w ↔ ∃ i : Fin n, (∀ j < i, v.chunks[j] = w.chunks[j]) ∧
      v.chunks[i] < w.chunks[i] := Iff.rfl
  rw [unfolded]
  constructor
  · rintro ⟨⟨r, lt⟩, same, less⟩
    refine ⟨r, lt, fun i below => ?_, ?_⟩
    · rw [letter_of_lt v (below.trans lt), letter_of_lt w (below.trans lt)]
      exact same ⟨i, below.trans lt⟩ below
    · rw [letter_of_lt v lt, letter_of_lt w lt]
      exact less
  · rintro ⟨r, lt, agree, less⟩
    refine ⟨⟨r, lt⟩, fun j below => ?_, ?_⟩
    · have same := agree j.val below
      rwa [letter_of_lt v j.isLt, letter_of_lt w j.isLt] at same
    · rwa [letter_of_lt v lt, letter_of_lt w lt] at less

theorem lt_of_letter {r : ℕ} {v w : Word α n} (agree : Agree r v w)
    (less : v.letter r < w.letter r) : v < w := by
  refine lt_iff.mpr ⟨r, ?_, agree, less⟩
  by_contra beyond
  rw [letter_of_le v (not_lt.mp beyond), letter_of_le w (not_lt.mp beyond)] at less
  exact lt_irrefl _ less

/-- At a position up to which the words agree, a smaller word has a smaller or equal letter. -/
theorem letter_le_of_lt {r : ℕ} {v w : Word α n} (agree : Agree r v w) (less : v < w) :
    v.letter r ≤ w.letter r := by
  by_contra greater
  exact lt_asymm less (lt_of_letter agree.symm (not_le.mp greater))

end Order

end Word

/-! ### Comparing letter by letter -/

/-- Lexicographic comparison of two lists of the same length, from the first letter on. -/
def lexCompare {α : Type} [LT α] [DecidableEq α] [DecidableLT α] : List α → List α → Ordering
  | x :: xs, y :: ys => if x = y then lexCompare xs ys else if x < y then .lt else .gt
  | _, _ => .eq

theorem lexCompare_self {α : Type} [LT α] [DecidableEq α] [DecidableLT α] (xs : List α) :
    lexCompare xs xs = .eq := by
  induction xs with
  | nil => rfl
  | cons x xs ih => rw [lexCompare, if_pos rfl, ih]

/-- The comparison stops at the first difference. -/
theorem lexCompare_of_difference {α : Type} [LT α] [DecidableEq α] [DecidableLT α] :
    ∀ (r : ℕ) (xs ys : List α), (∀ i < r, xs[i]? = ys[i]?) → ∀ (x y : α), xs[r]? = some x →
      ys[r]? = some y → x ≠ y → lexCompare xs ys = if x < y then .lt else .gt
  | _, [], _, _, _, _, atX, _, _ => by simp at atX
  | _, _ :: _, [], _, _, _, _, atY, _ => by simp at atY
  | 0, a :: _, b :: _, _, x, y, atX, atY, differ => by
      simp only [List.getElem?_cons_zero, Option.some.injEq] at atX atY
      subst atX atY
      rw [lexCompare, if_neg differ]
  | r + 1, a :: xs, b :: ys, same, x, y, atX, atY, differ => by
      have head := same 0 (Nat.succ_pos r)
      simp only [List.getElem?_cons_zero, Option.some.injEq] at head
      rw [lexCompare, if_pos head]
      refine lexCompare_of_difference r xs ys (fun i lt => ?_) x y ?_ ?_ differ
      · simpa using same (i + 1) (Nat.succ_lt_succ lt)
      · simpa using atX
      · simpa using atY

namespace Word

variable {α : Type} [Inhabited α] [LinearOrder α] {n : ℕ}

/-- **Comparing letter by letter decides the lexicographic order.** -/
theorem lexCompare_eq (v w : Word α n) :
    lexCompare v.chunks.toList w.chunks.toList
      = if v = w then .eq else if v < w then .lt else .gt := by
  by_cases same : v = w
  · rw [if_pos same, same, lexCompare_self]
  · obtain ⟨r, lt, agree, differ⟩ := exists_first_difference same
    have read : ∀ (u : Word α n) (i : ℕ), i < n → u.chunks.toList[i]? = some (u.letter i) :=
      fun u i below => by rw [Vector.getElem?_toList, chunks_getElem?_of_lt u below]
    rw [if_neg same, lexCompare_of_difference r _ _ (fun i below => ?_) _ _ (read v r lt)
      (read w r lt) differ]
    · by_cases less : v.letter r < w.letter r
      · rw [if_pos less, if_pos (lt_of_letter agree less)]
      · rw [if_neg less, if_neg fun before => less (lt_of_le_of_ne (letter_le_of_lt agree before) differ)]
    · rw [read v i (below.trans lt), read w i (below.trans lt), agree i below]

end Word

/-! ### Both directions of an order -/

/-- A direction in which an order is read. -/
inductive Dir
  | up
  | down
deriving DecidableEq, Repr

namespace Dir

variable {β : Type} [LinearOrder β]

/-- `x` comes before `y` when the order is read in this direction. -/
def before : Dir → β → β → Prop
  | .up, x, y => x < y
  | .down, x, y => y < x

theorem before_trans {dir : Dir} {x y z : β} (one : dir.before x y) (two : dir.before y z) :
    dir.before x z := by
  cases dir with
  | up => exact lt_trans one two
  | down => exact lt_trans two one

theorem before_irrefl (dir : Dir) (x : β) : ¬ dir.before x x := by
  cases dir <;> exact lt_irrefl x

theorem before_asymm {dir : Dir} {x y : β} (one : dir.before x y) : ¬ dir.before y x := by
  cases dir <;> exact lt_asymm one

theorem ne_of_before {dir : Dir} {x y : β} (one : dir.before x y) : x ≠ y := by
  rintro rfl
  exact before_irrefl dir x one

theorem before_or_eq_or_before (dir : Dir) (x y : β) :
    dir.before x y ∨ x = y ∨ dir.before y x := by
  cases dir with
  | up => exact lt_trichotomy x y
  | down => exact (lt_trichotomy y x).imp id (Or.imp Eq.symm id)

/-- The other direction. -/
def opposite : Dir → Dir
  | .up => .down
  | .down => .up

theorem before_opposite {dir : Dir} {x y : β} : dir.opposite.before x y ↔ dir.before y x := by
  cases dir <;> exact Iff.rfl

/-- `x` is the first element of the set in this direction. -/
def IsFirst (dir : Dir) (s : Set β) (x : β) : Prop :=
  x ∈ s ∧ ∀ y ∈ s, y ≠ x → dir.before x y

theorem IsFirst.unique {dir : Dir} {s : Set β} {x y : β} (one : dir.IsFirst s x)
    (two : dir.IsFirst s y) : x = y := by
  by_contra different
  exact before_asymm (one.2 y two.1 (Ne.symm different)) (two.2 x one.1 different)

/-- From the first element beyond `x`, the first one on the way back is `x`. -/
theorem IsFirst.back {dir : Dir} {s : Set β} {x y : β} (member : x ∈ s)
    (first : dir.IsFirst {u | u ∈ s ∧ dir.before x u} y) :
    dir.opposite.IsFirst {u | u ∈ s ∧ dir.opposite.before y u} x := by
  refine ⟨⟨member, before_opposite.mpr first.1.2⟩, fun u inside differ => before_opposite.mpr ?_⟩
  have closer : dir.before u y := before_opposite.mp inside.2
  rcases before_or_eq_or_before dir u x with before | same | after
  · exact before
  · exact absurd same differ
  · exact absurd (first.2 u ⟨inside.1, after⟩ (ne_of_before closer)) (before_asymm closer)

theorem isFirst_up_iff {s : Set β} {x : β} : Dir.up.IsFirst s x ↔ IsLeast s x := by
  constructor
  · rintro ⟨member, first⟩
    refine ⟨member, fun y inside => ?_⟩
    by_cases same : y = x
    · exact same.ge
    · exact (first y inside same).le
  · rintro ⟨member, least⟩
    exact ⟨member, fun y inside differ => lt_of_le_of_ne (least inside) (Ne.symm differ)⟩

theorem isFirst_down_iff {s : Set β} {x : β} : Dir.down.IsFirst s x ↔ IsGreatest s x := by
  constructor
  · rintro ⟨member, first⟩
    refine ⟨member, fun y inside => ?_⟩
    by_cases same : y = x
    · exact same.le
    · exact (first y inside same).le
  · rintro ⟨member, greatest⟩
    exact ⟨member, fun y inside differ => lt_of_le_of_ne (greatest inside) differ⟩

/-- **The elements of a set, listed in this direction.** -/
structure Lists (dir : Dir) (s : Set β) (l : List β) : Prop where
  mem_iff : ∀ x, x ∈ l ↔ x ∈ s
  sorted : l.Pairwise dir.before

theorem exists_lists {s : Set β} (finite : s.Finite) : ∃ l, Dir.up.Lists s l :=
  ⟨finite.toFinset.sort, fun x => by simp, (Finset.sortedLT_sort _).pairwise⟩

namespace Lists

variable {dir : Dir} {s : Set β} {x : β} {l : List β}

theorem nodup (lists : dir.Lists s l) : l.Nodup :=
  lists.sorted.imp ne_of_before

theorem length_eq (lists : dir.Lists s l) : l.length = s.ncard := by
  classical
  have same : s = (l.toFinset : Set β) := by
    ext x
    simp [lists.mem_iff]
  rw [same, Set.ncard_coe_finset, List.toFinset_card_of_nodup lists.nodup]

/-- The same list is read backwards in the other direction. -/
theorem reverse (lists : Dir.up.Lists s l) : Dir.down.Lists s l.reverse :=
  ⟨fun x => by rw [List.mem_reverse, lists.mem_iff], List.pairwise_reverse.mpr lists.sorted⟩

theorem eq_nil (lists : dir.Lists s []) : s = ∅ :=
  Set.eq_empty_of_forall_notMem fun x inside => List.not_mem_nil ((lists.mem_iff x).mpr inside)

theorem isFirst (lists : dir.Lists s (x :: l)) : dir.IsFirst s x := by
  refine ⟨(lists.mem_iff x).mp List.mem_cons_self, fun y inside differ => ?_⟩
  have listed : y ∈ l := (List.mem_cons.mp ((lists.mem_iff y).mpr inside)).resolve_left differ
  exact List.rel_of_pairwise_cons lists.sorted listed

/-- What follows the first element. -/
theorem tail (lists : dir.Lists s (x :: l)) : dir.Lists {y | y ∈ s ∧ dir.before x y} l := by
  refine ⟨fun y => ⟨fun listed => ?_, fun inside => ?_⟩, lists.sorted.of_cons⟩
  · exact ⟨(lists.mem_iff y).mp (List.mem_cons_of_mem x listed),
      List.rel_of_pairwise_cons lists.sorted listed⟩
  · have listed := List.mem_cons.mp ((lists.mem_iff y).mpr inside.1)
    exact listed.resolve_left fun same => ne_of_before inside.2 same.symm

end Lists

end Dir

namespace Word

variable {α : Type} [Inhabited α] [LinearOrder α] {n : ℕ}

/-- The order of words in a direction is decided at the first difference. -/
theorem before_iff {dir : Dir} {v w : Word α n} :
    dir.before v w ↔ ∃ r < n, Agree r v w ∧ dir.before (v.letter r) (w.letter r) := by
  cases dir with
  | up => exact lt_iff
  | down =>
      rw [Dir.before, lt_iff]
      constructor <;> rintro ⟨r, lt, agree, less⟩ <;> exact ⟨r, lt, agree.symm, less⟩

theorem before_of_letter {dir : Dir} {r : ℕ} {v w : Word α n} (agree : Agree r v w)
    (less : dir.before (v.letter r) (w.letter r)) : dir.before v w := by
  cases dir with
  | up => exact lt_of_letter agree less
  | down => exact lt_of_letter agree.symm less

/-- Where two words first differ, their letters are in the order of the words. -/
theorem letter_before {dir : Dir} {r : ℕ} {v w : Word α n} (agree : Agree r v w)
    (differ : v.letter r ≠ w.letter r) (side : dir.before v w) :
    dir.before (v.letter r) (w.letter r) := by
  rcases dir.before_or_eq_or_before (v.letter r) (w.letter r) with less | same | greater
  · exact less
  · exact absurd same differ
  · exact absurd (before_of_letter agree.symm greater) (Dir.before_asymm side)

/-- Words that agree with each other beyond their first difference with `w` are on the same side
of `w`. -/
theorem before_of_agree {dir : Dir} {d : ℕ} {u v w : Word α n} (agree : Agree d u v)
    (apart : ¬ Agree d u w) (side : dir.before u w) : dir.before v w := by
  obtain ⟨r, lt, agreeR, less⟩ := before_iff.mp side
  have below : r < d := by
    by_contra beyond
    exact apart (agreeR.mono (not_lt.mp beyond))
  refine before_of_letter ((agree.mono below.le).symm.trans agreeR) ?_
  rwa [← agree r below]

end Word

end CppArt
