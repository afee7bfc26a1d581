/-
**`key_transform` of strings.**

`std::memcpy` writes the bytes of a string and a NUL into an array of zeros. It stays inside the array
exactly when the string is shorter than the array (`keyTransform_of_lt`, `keyTransform_of_le`), and the
array is then the string padded with NULs. Padding forgets the NULs at the end of a string, and
nothing else (`compare_padded`, by induction on both strings).

* `string_key_faithful`: when the transform is safe and keeps the order.
-/

import CppArt.Model.KeyTransform

namespace CppArt

namespace StringKey

/-! ### Writing -/

/-- A copy that fits writes its bytes and nothing else. -/
theorem memcpy_of_le {size : ℕ} : ∀ (src : List Byte) (pos : ℕ) (transformed : Vector Byte size),
    pos + src.length ≤ size → ∃ written, memcpy src pos transformed = .ok written ∧
      written.toList = transformed.toList.take pos ++ src ++ transformed.toList.drop (pos + src.length)
  | [], pos, transformed, _ => ⟨transformed, rfl, by simp⟩
  | byte :: rest, pos, transformed, fits => by
      rw [List.length_cons] at fits
      obtain ⟨written, run, bytes⟩ :=
        memcpy_of_le rest (pos + 1) (transformed.setIfInBounds pos byte) (by omega)
      refine ⟨written, ?_, ?_⟩
      · rw [memcpy, if_pos (by omega)]
        exact run
      · have below : pos < transformed.toList.length := by rw [Vector.length_toList]; omega
        rw [bytes, Vector.toList_setIfInBounds, List.take_add_one, List.take_set_of_le le_rfl,
          List.getElem?_set_self below, List.drop_set_of_lt (by omega), List.length_cons,
          show pos + (rest.length + 1) = pos + 1 + rest.length by omega]
        simp

/-- A copy that does not fit writes past the end. -/
theorem memcpy_of_lt {size : ℕ} : ∀ (src : List Byte) (pos : ℕ) (transformed : Vector Byte size),
    pos ≤ size → size < pos + src.length → memcpy src pos transformed = .error .outOfBounds
  | [], pos, _, inside, beyond => absurd beyond (not_lt.mpr inside)
  | byte :: rest, pos, transformed, inside, beyond => by
      rw [List.length_cons] at beyond
      rw [memcpy]
      by_cases below : pos < size
      · rw [if_pos below]
        exact memcpy_of_lt rest (pos + 1) _ below (by omega)
      · rw [if_neg below]

/-- A string with NULs up to a size. -/
def padded (size : ℕ) (key : List Byte) : List Byte := key ++ List.replicate (size - key.length) 0

/-- **A string that is shorter than the array** is padded. -/
theorem keyTransform_of_lt {maxSize : ℕ} {key : List Byte} (short : key.length < maxSize) :
    ∃ transformed, keyTransform maxSize key = .ok transformed ∧
      transformed.toList = padded maxSize key := by
  have length : (cStr key).length = key.length + 1 := by rw [cStr, List.length_append]; rfl
  obtain ⟨written, run, bytes⟩ :=
    memcpy_of_le (cStr key) 0 (Vector.replicate maxSize 0) (by omega)
  refine ⟨written, run, ?_⟩
  obtain ⟨rest, rfl⟩ : ∃ rest, maxSize = key.length + 1 + rest := ⟨maxSize - (key.length + 1), by omega⟩
  rw [bytes, length, padded, cStr, Vector.toList_replicate, List.drop_replicate]
  rw [show key.length + 1 + rest - (0 + (key.length + 1)) = rest by omega,
    show key.length + 1 + rest - key.length = rest + 1 by omega, List.replicate_succ]
  simp

/-- **Any other string** is written past the end of the array. -/
theorem keyTransform_of_le {maxSize : ℕ} {key : List Byte} (long : maxSize ≤ key.length) :
    keyTransform maxSize key = .error .outOfBounds := by
  apply memcpy_of_lt
  · exact Nat.zero_le _
  · rw [cStr, List.length_append, List.length_singleton]
    omega

/-! ### Comparing -/

/-- The second string is the first one with NULs appended. -/
def NulPadded (x y : List Byte) : Prop := ∃ count, y = x ++ List.replicate (count + 1) 0

/-- Two equal bytes in front do not matter. -/
theorem nulPadded_cons (a : Byte) (x y : List Byte) : NulPadded (a :: x) (a :: y) ↔ NulPadded x y :=
  exists_congr fun count => by rw [List.cons_append, List.cons_inj_right]

theorem compare_nil_cons (b : Byte) (ys : List Byte) : compare [] (b :: ys) = .lt := by
  simp [compare, lexCompare, Nat.compare_eq_ite_lt]

theorem compare_cons_nil (a : Byte) (xs : List Byte) : compare (a :: xs) [] = .gt := by
  simp [compare, lexCompare, Nat.compare_eq_ite_lt]

theorem compare_cons_cons (a b : Byte) (xs ys : List Byte) :
    compare (a :: xs) (b :: ys) = if a = b then compare xs ys else if a < b then .lt else .gt := by
  have sizes : Ord.compare (xs.length + 1) (ys.length + 1) = Ord.compare xs.length ys.length := by
    simp only [Nat.compare_eq_ite_lt, Nat.add_lt_add_iff_right]
  simp only [compare, List.length_cons, Nat.succ_min_succ, List.take_succ_cons, lexCompare, sizes]
  by_cases same : a = b
  · rw [if_pos same, if_pos same]
  · rw [if_neg same, if_neg same]
    by_cases less : a < b
    · rw [if_pos less]
      rfl
    · rw [if_neg less]
      rfl

/-- Only equal strings compare equal. -/
theorem compare_eq_iff : ∀ x y : List Byte, compare x y = .eq ↔ x = y
  | [], [] => ⟨fun _ => rfl, fun _ => rfl⟩
  | [], b :: ys => by simp [compare_nil_cons]
  | a :: xs, [] => by simp [compare_cons_nil]
  | a :: xs, b :: ys => by
      rw [compare_cons_cons, List.cons.injEq]
      by_cases same : a = b
      · rw [if_pos same, compare_eq_iff xs ys]
        exact (and_iff_right same).symm
      · rw [if_neg same]
        refine ⟨fun equal => ?_, fun equal => absurd equal.1 same⟩
        by_cases less : a < b
        · rw [if_pos less] at equal
          cases equal
        · rw [if_neg less] at equal
          cases equal

theorem padded_cons (size : ℕ) (a : Byte) (x : List Byte) :
    padded (size + 1) (a :: x) = a :: padded size x := by
  rw [padded, padded, List.length_cons, Nat.add_sub_add_right, List.cons_append]

/-- NULs are less than bytes that are not all NUL. -/
theorem lexCompare_zeros : ∀ zs : List Byte, zs ≠ List.replicate zs.length 0 →
    lexCompare (List.replicate zs.length 0) zs = .lt ∧ lexCompare zs (List.replicate zs.length 0) = .gt
  | [], other => absurd rfl other
  | z :: zs, other => by
      rw [List.length_cons, List.replicate_succ] at other ⊢
      rw [lexCompare, lexCompare]
      by_cases zero : z = 0
      · rw [if_pos zero.symm, if_pos zero]
        exact lexCompare_zeros zs fun same => other (by rw [zero, ← same])
      · have positive : 0 < z := Fin.pos_of_ne_zero zero
        rw [if_neg fun eq => zero eq.symm, if_pos positive, if_neg zero, if_neg positive.not_gt]
        exact ⟨rfl, rfl⟩

/-- The padding of a string that is not all NUL. -/
theorem padded_ne_zeros {size : ℕ} {b : Byte} {ys : List Byte} (other : ¬ NulPadded [] (b :: ys)) :
    padded size (b :: ys) ≠ List.replicate size 0 := by
  intro same
  refine other ⟨ys.length, ?_⟩
  rw [List.nil_append, ← List.length_cons, List.eq_replicate_iff]
  refine ⟨rfl, fun byte inside => ?_⟩
  have inside' : byte ∈ padded size (b :: ys) := List.mem_append_left _ inside
  rw [same] at inside'
  exact List.eq_of_mem_replicate inside'

theorem padded_length {size : ℕ} {key : List Byte} (le : key.length ≤ size) :
    (padded size key).length = size := by
  rw [padded, List.length_append, List.length_replicate]
  omega

/-- **Padded strings are compared as the strings**, unless these differ by NULs at the end. -/
theorem compare_padded : ∀ (size : ℕ) (x y : List Byte), x.length ≤ size → y.length ≤ size →
    ¬ NulPadded x y → ¬ NulPadded y x → lexCompare (padded size x) (padded size y) = compare x y
  | _, [], [], _, _, _, _ => lexCompare_self _
  | size, [], b :: ys, _, fits, other, _ => by
      have zeros := lexCompare_zeros (padded size (b :: ys))
      rw [padded_length fits] at zeros
      rw [compare_nil_cons]
      exact (zeros (padded_ne_zeros other)).1
  | size, a :: xs, [], fits, _, _, other => by
      have zeros := lexCompare_zeros (padded size (a :: xs))
      rw [padded_length fits] at zeros
      rw [compare_cons_nil]
      exact (zeros (padded_ne_zeros other)).2
  | 0, _ :: _, _ :: _, fits, _, _, _ => by cases fits
  | size + 1, a :: xs, b :: ys, fits, fits', other, other' => by
      rw [padded_cons, padded_cons, compare_cons_cons, lexCompare]
      by_cases same : a = b
      · subst same
        rw [if_pos rfl, if_pos rfl]
        exact compare_padded size xs ys (Nat.le_of_succ_le_succ fits) (Nat.le_of_succ_le_succ fits')
          (fun later => other ((nulPadded_cons a xs ys).mpr later))
          fun later => other' ((nulPadded_cons a ys xs).mpr later)
      · rw [if_neg same, if_neg same]

/-- Strings that differ by NULs at the end are padded to the same bytes. -/
theorem NulPadded.padded_eq {size : ℕ} {x y : List Byte} (nuls : NulPadded x y)
    (fits : y.length ≤ size) : padded size x = padded size y := by
  obtain ⟨count, rfl⟩ := nuls
  rw [List.length_append, List.length_replicate] at fits
  rw [padded, padded, List.append_assoc, List.replicate_append_replicate, List.length_append,
    List.length_replicate]
  congr 2
  omega

/-- ... and are different strings. -/
theorem NulPadded.ne {x y : List Byte} (nuls : NulPadded x y) : x ≠ y := by
  obtain ⟨count, rfl⟩ := nuls
  intro same
  have lengths := congrArg List.length same
  rw [List.length_append, List.length_replicate] at lengths
  omega

/-! ### Safety and order -/

/-- **The transform of two strings is safe and keeps their order.** -/
def OrderKept (maxSize : ℕ) (x y : List Byte) : Prop :=
  ∃ transformed transformed', keyTransform maxSize x = .ok transformed ∧
    keyTransform maxSize y = .ok transformed' ∧
    lexCompare transformed.toList transformed'.toList = compare x y

theorem OrderKept.lt {maxSize : ℕ} {x y : List Byte} (kept : OrderKept maxSize x y) :
    x.length < maxSize ∧ y.length < maxSize := by
  obtain ⟨transformed, transformed', run, run', -⟩ := kept
  constructor
  · by_contra long
    rw [keyTransform_of_le (not_lt.mp long)] at run
    cases run
  · by_contra long
    rw [keyTransform_of_le (not_lt.mp long)] at run'
    cases run'

/-- The comparison of the padded strings. -/
theorem orderKept_iff_of_lt {maxSize : ℕ} {x y : List Byte} (short : x.length < maxSize)
    (short' : y.length < maxSize) :
    OrderKept maxSize x y ↔ lexCompare (padded maxSize x) (padded maxSize y) = compare x y := by
  obtain ⟨transformed, run, bytes⟩ := keyTransform_of_lt short
  obtain ⟨transformed', run', bytes'⟩ := keyTransform_of_lt short'
  rw [← bytes, ← bytes']
  constructor
  · rintro ⟨u, v, runU, runV, order⟩
    rw [run, Except.ok.injEq] at runU
    rw [run', Except.ok.injEq] at runV
    rw [runU, runV, order]
  · intro order
    exact ⟨transformed, transformed', run, run', order⟩

/-- Padding forgets the NULs at the end of a string. -/
theorem not_orderKept_of_nulPadded {maxSize : ℕ} {x y : List Byte} (nuls : NulPadded x y) :
    ¬ OrderKept maxSize x y ∧ ¬ OrderKept maxSize y x := by
  constructor
  · intro kept
    obtain ⟨short, short'⟩ := kept.lt
    rw [orderKept_iff_of_lt short short', nuls.padded_eq short'.le, lexCompare_self, eq_comm,
      compare_eq_iff] at kept
    exact nuls.ne kept
  · intro kept
    obtain ⟨short', short⟩ := kept.lt
    rw [orderKept_iff_of_lt short' short, nuls.padded_eq short'.le, lexCompare_self, eq_comm,
      compare_eq_iff] at kept
    exact nuls.ne kept.symm

end StringKey

open StringKey in
/-- **When `key_transform` of strings is safe and faithful**: both strings are shorter than the array,
and neither is the other one with NULs appended. -/
theorem string_key_faithful (maxSize : ℕ) (x y : List Byte) :
    OrderKept maxSize x y ↔
      x.length < maxSize ∧ y.length < maxSize ∧ ¬ NulPadded x y ∧ ¬ NulPadded y x := by
  constructor
  · intro kept
    refine ⟨kept.lt.1, kept.lt.2, ?_, ?_⟩
    · exact fun nuls => (not_orderKept_of_nulPadded nuls).1 kept
    · exact fun nuls => (not_orderKept_of_nulPadded nuls).2 kept
  · rintro ⟨short, short', other, other'⟩
    rw [orderKept_iff_of_lt short short']
    exact compare_padded maxSize x y short.le short'.le other other'

open StringKey in
/-- **256 letters in the array of the default size** are written past its end, and the strings `a` and
`a` followed by a NUL are not told apart. -/
theorem string_key_overflow :
    keyTransform 256 (List.replicate 256 97) = .error .outOfBounds ∧
    ¬ OrderKept 256 (List.replicate 256 97) [97] ∧ ¬ OrderKept 256 [97] [97, 0] := by
  have long : 256 ≤ (List.replicate 256 (97 : Byte)).length := List.length_replicate.ge
  have nuls : NulPadded [97] [97, 0] := ⟨0, rfl⟩
  refine ⟨keyTransform_of_le long, fun kept => ?_, (not_orderKept_of_nulPadded nuls).1⟩
  exact absurd kept.lt.1 long.not_gt

end CppArt
