/-
**Numbers as digits, most significant first, and bit vectors whose groups of bits are exchanged.**

* `bigEndian base size x`: the digits of a number, and `lexCompare_bigEndian`: comparing them one after
  the other compares the numbers;
* `lexCompare_append`: comparing concatenations of words of equal lengths;
* `Exchanged s v u`: in `u` the groups of `s` bits of `v` are exchanged in pairs. A shift and mask does
  this (`exchanged_of_masks`, `exchanged_halves`), and doing it for groups of 8, 16 and 32 bits reverses
  the bytes;
* `slt_iff_flipped`: the order of signed values after the sign bit has been flipped.
-/

import CppArt.Lib.Words

namespace CppArt

/-! ### Digits -/

/-- The digit of a number at a position, counted from the least significant one. -/
def digit (base : ℕ) [NeZero base] (x i : ℕ) : Fin base := Fin.ofNat base (x / base ^ i)

/-- The digits of a number, most significant first. -/
def bigEndian (base : ℕ) [NeZero base] (size x : ℕ) : List (Fin base) :=
  List.ofFn fun i : Fin size => digit base x (size - 1 - i)

/-- The most significant digit decides. -/
theorem add_mul_lt {base power x y : ℕ} {a b : Fin base} (below : x < power) (less : a < b) :
    x + power * a.val < y + power * b.val :=
  calc x + power * a.val < power * (a.val + 1) := by rw [Nat.mul_succ]; omega
    _ ≤ power * b.val := Nat.mul_le_mul_left power (Nat.succ_le_of_lt less)
    _ ≤ y + power * b.val := Nat.le_add_left _ _

section Digits

variable (base : ℕ) [NeZero base]

@[simp] theorem bigEndian_length (size x : ℕ) : (bigEndian base size x).length = size := by
  rw [bigEndian, List.length_ofFn]

theorem bigEndian_succ (size x : ℕ) :
    bigEndian base (size + 1) x = digit base x size :: bigEndian base size x := by
  rw [bigEndian, List.ofFn_succ, bigEndian]
  congr 1
  apply congrArg
  funext i
  apply congrArg
  rw [Fin.val_succ]
  omega

/-- The most significant digit and the rest of a number. -/
theorem mod_pow_succ (size x : ℕ) :
    x % base ^ (size + 1) = x % base ^ size + base ^ size * (digit base x size).val := by
  rw [pow_succ, Nat.mod_mul]
  rfl

/-- **Comparing digits compares numbers.** -/
theorem lexCompare_bigEndian_mod (x y : ℕ) : ∀ size : ℕ,
    lexCompare (bigEndian base size x) (bigEndian base size y)
      = compare (x % base ^ size) (y % base ^ size)
  | 0 => by simp [bigEndian, lexCompare, Nat.mod_one]
  | size + 1 => by
      have ih := lexCompare_bigEndian_mod x y size
      have positive : 0 < base ^ size := pow_pos (Nat.pos_of_neZero base) size
      have below : x % base ^ size < base ^ size := Nat.mod_lt _ positive
      have below' : y % base ^ size < base ^ size := Nat.mod_lt _ positive
      rw [bigEndian_succ, bigEndian_succ, lexCompare, ih, mod_pow_succ base size x,
        mod_pow_succ base size y]
      by_cases same : digit base x size = digit base y size
      · rw [if_pos same, same, Nat.compare_eq_ite_lt, Nat.compare_eq_ite_lt]
        simp only [Nat.add_lt_add_iff_right]
      · rw [if_neg same]
        by_cases less : digit base x size < digit base y size
        · rw [if_pos less, eq_comm, Nat.compare_eq_lt]
          exact add_mul_lt below less
        · rw [if_neg less, eq_comm, Nat.compare_eq_gt]
          have more : digit base y size < digit base x size :=
            lt_of_le_of_ne (not_lt.mp less) fun eq => same eq.symm
          exact add_mul_lt below' more

/-- Comparing all digits of two numbers compares the numbers. -/
theorem lexCompare_bigEndian {size x y : ℕ} (inX : x < base ^ size) (inY : y < base ^ size) :
    lexCompare (bigEndian base size x) (bigEndian base size y) = compare x y := by
  rw [lexCompare_bigEndian_mod, Nat.mod_eq_of_lt inX, Nat.mod_eq_of_lt inY]

end Digits

/-- **Concatenations are compared by their first parts, then by their second parts.** -/
theorem lexCompare_append {α : Type} [LT α] [DecidableEq α] [DecidableLT α] (xs' ys' : List α) :
    ∀ xs ys : List α, xs.length = ys.length →
      lexCompare (xs ++ xs') (ys ++ ys') = (lexCompare xs ys).then (lexCompare xs' ys')
  | [], [], _ => rfl
  | x :: xs, y :: ys, lengths => by
      have ih := lexCompare_append xs' ys' xs ys (Nat.succ.inj lengths)
      rw [List.cons_append, List.cons_append, lexCompare, lexCompare, ih]
      by_cases same : x = y
      · rw [if_pos same, if_pos same]
      · rw [if_neg same, if_neg same]
        by_cases less : x < y
        · rw [if_pos less]
          rfl
        · rw [if_neg less]
          rfl

/-! ### Groups of bits -/

/-- The bytes at two positions are the same when their bits are. -/
theorem digit_of_testBit {x y i j : ℕ}
    (bits : ∀ k < 8, x.testBit (8 * i + k) = y.testBit (8 * j + k)) :
    digit 256 x i = digit 256 y j := by
  have power : ∀ i : ℕ, 256 ^ i = 2 ^ (8 * i) := fun i => pow_mul 2 8 i ▸ rfl
  apply Fin.ext
  show x / 256 ^ i % 2 ^ 8 = y / 256 ^ j % 2 ^ 8
  apply Nat.eq_of_testBit_eq
  intro k
  rw [power, power, Nat.testBit_mod_two_pow, Nat.testBit_mod_two_pow, Nat.testBit_div_two_pow,
    Nat.testBit_div_two_pow]
  by_cases low : k < 8
  · rw [Nat.add_comm k, Nat.add_comm k, bits k low]
  · rw [decide_eq_false low, Bool.false_and, Bool.false_and]

/-- The position with which a bit is exchanged, in groups of `s` bits. -/
def partner (s k : ℕ) : ℕ := if k / s % 2 = 1 then k - s else k + s

/-- **The groups of `s` bits are exchanged in pairs.** -/
def Exchanged {w : ℕ} (s : ℕ) (v u : BitVec w) : Prop :=
  ∀ k < w, u.getLsbD k = v.getLsbD (partner s k)

/-- Masks that keep every other group: a shift up, and a shift down of any kind. -/
theorem exchanged_of_masks {w s : ℕ} {v down odd even : BitVec w}
    (shifted : ∀ k, k + s < w → down.getLsbD k = v.getLsbD (k + s))
    (odds : ∀ k < w, odd.getLsbD k = decide (k / s % 2 = 1))
    (evens : ∀ k < w, even.getLsbD k = decide (k / s % 2 = 0 ∧ k + s < w))
    (paired : ∀ k < w, k / s % 2 = 0 → k + s < w) :
    Exchanged s v ((v <<< s &&& odd) ||| (down &&& even)) := by
  intro k lt
  rw [BitVec.getLsbD_or, BitVec.getLsbD_and, BitVec.getLsbD_and, odds k lt, evens k lt,
    BitVec.getLsbD_shiftLeft, partner]
  rcases Nat.mod_two_eq_zero_or_one (k / s) with group | group
  · rw [if_neg (by omega), shifted k (paired k lt group)]
    simp [group, paired k lt group]
  · have above : ¬ k < s := fun below => by
      rw [Nat.div_eq_of_lt below] at group
      cases group
    rw [if_pos group]
    simp [group, above, lt]

/-- The two halves are exchanged by a shift up and a shift down. -/
theorem exchanged_halves {w s : ℕ} {v down : BitVec w} (two : w = s + s)
    (shifted : ∀ k < w, down.getLsbD k = (decide (k < s) && v.getLsbD (k + s))) :
    Exchanged s v (v <<< s ||| down) := by
  intro k lt
  rw [BitVec.getLsbD_or, shifted k lt, BitVec.getLsbD_shiftLeft, partner]
  by_cases low : k < s
  · rw [Nat.div_eq_of_lt low]
    simp [low]
  · have group : k / s = 1 := Nat.div_eq_of_lt_le (by omega) (by omega)
    rw [group]
    simp [low, lt]

/-! ### The sign bit -/

/-- Flipping the sign bit of a value that is not negative adds the weight of that bit. -/
theorem toNat_xor_intMin {w : ℕ} {v : BitVec w} (positive : 0 < w) (plus : v.msb = false) :
    (v ^^^ BitVec.intMin w).toNat = v.toNat + 2 ^ (w - 1) := by
  have apart : v &&& BitVec.intMin w = 0#w := by
    apply BitVec.eq_of_getLsbD_eq
    intro k lt
    rw [BitVec.getLsbD_and, BitVec.getLsbD_intMin, BitVec.getLsbD_zero]
    by_cases top : k + 1 = w
    · have : k = w - 1 := by omega
      rw [this, ← BitVec.msb_eq_getLsbD_last, plus, Bool.false_and]
    · rw [decide_eq_false top, Bool.and_false]
  have same : v ^^^ BitVec.intMin w = v + BitVec.intMin w := by
    rw [BitVec.add_eq_or_of_and_eq_zero _ _ apart]
    apply BitVec.eq_of_getLsbD_eq
    intro k lt
    have bit := congrArg (BitVec.getLsbD · k) apart
    simp only [BitVec.getLsbD_and, BitVec.getLsbD_zero] at bit
    rw [BitVec.getLsbD_xor, BitVec.getLsbD_or]
    revert bit
    generalize v.getLsbD k = x, (BitVec.intMin w).getLsbD k = y
    revert x y
    decide
  have small : 2 * v.toNat < 2 ^ w := by
    rw [BitVec.msb_eq_decide] at plus
    have le := not_le.mp (of_decide_eq_false plus)
    calc 2 * v.toNat < 2 * 2 ^ (w - 1) := by omega
      _ = 2 ^ w := by rw [← pow_succ', Nat.sub_add_cancel positive]
  have double : 2 ^ w = 2 * 2 ^ (w - 1) := by rw [← pow_succ', Nat.sub_add_cancel positive]
  rw [same, BitVec.toNat_add, BitVec.toNat_intMin_of_pos positive, Nat.mod_eq_of_lt (by omega)]

/-- Flipping the sign bit shifts the signed values to the unsigned ones. -/
theorem toNat_flipped {w : ℕ} (positive : 0 < w) (v : BitVec w) :
    ((v ^^^ BitVec.intMin w).toNat : ℤ) = v.toInt + 2 ^ (w - 1) := by
  have double : (2 : ℤ) ^ w = 2 * 2 ^ (w - 1) := by rw [← pow_succ', Nat.sub_add_cancel positive]
  rw [BitVec.toInt_eq_msb_cond]
  cases sign : v.msb with
  | false =>
      rw [toNat_xor_intMin positive sign]
      push_cast
      simp
  | true =>
      have plus : (v ^^^ BitVec.intMin w).msb = false := by
        rw [BitVec.msb_xor, sign, BitVec.msb_intMin, decide_eq_true positive]
        rfl
      have back := toNat_xor_intMin positive plus
      rw [BitVec.xor_assoc, BitVec.xor_self, BitVec.xor_zero] at back
      rw [back]
      push_cast
      simp only [if_true]
      omega

/-- **The order of signed values is that of the unsigned ones after flipping the sign bit.** -/
theorem slt_iff_flipped {w : ℕ} (positive : 0 < w) (v u : BitVec w) :
    v.slt u = true ↔ (v ^^^ BitVec.intMin w).toNat < (u ^^^ BitVec.intMin w).toNat := by
  rw [BitVec.slt_iff_toInt_lt, ← Int.ofNat_lt, toNat_flipped positive, toNat_flipped positive]
  omega

end CppArt
