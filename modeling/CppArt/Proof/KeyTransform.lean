/-
**`key_transform` of integers and pairs is an order embedding.**

The byte swaps reverse the bytes of a value (`Reverses`), so on either host the bytes in memory of a
transformed integer are the digits of a number, most significant first (`intBytes_eq`). That number is
the value itself, or the value with its sign bit flipped, and numbers are compared by their digits. A
pair is compared by its first part and then by its second (`keyBytes_compare`, by induction on the key
type).

* `key_transform_order`: comparing the bytes of transformed keys is comparing the keys.
-/

import CppArt.Model.KeyTransform

namespace CppArt

/-! ### Byte swaps -/

/-- **The bytes are reversed.** -/
def Reverses {w : ℕ} (size : ℕ) (v u : BitVec w) : Prop :=
  ∀ k < 8 * size, u.getLsbD k = v.getLsbD (8 * (size - 1 - k / 8) + k % 8)

/-- The digits of a reversed value are those of the value in the other order. -/
theorem Reverses.digit {w size : ℕ} {v u : BitVec w} (reverses : Reverses size v u) {i : ℕ}
    (lt : i < size) : digit 256 u.toNat i = digit 256 v.toNat (size - 1 - i) := by
  apply digit_of_testBit
  intro k low
  have bit := reverses (8 * i + k) (by omega)
  rwa [show (8 * i + k) / 8 = i by omega, show (8 * i + k) % 8 = k by omega] at bit

/-- A shift down of a signed value brings down the same bits. -/
theorem getLsbD_sshiftRight_of_lt {w s : ℕ} (v : BitVec w) (k : ℕ) (lt : k + s < w) :
    (v.sshiftRight s).getLsbD k = v.getLsbD (k + s) := by
  rw [BitVec.getLsbD_sshiftRight, if_pos (by omega), Nat.add_comm s k]
  simp only [Bool.and_eq_right_iff_imp, Bool.not_eq_true', decide_eq_false_iff_not]
  omega

theorem getLsbD_ushiftRight_of_lt {w s : ℕ} (v : BitVec w) (k : ℕ) (_ : k + s < w) :
    (v >>> s).getLsbD k = v.getLsbD (k + s) := by
  rw [BitVec.getLsbD_ushiftRight, Nat.add_comm]

/-- The upper half of an unsigned value, shifted down. -/
theorem getLsbD_upper_half {w s : ℕ} (v : BitVec w) (two : w = s + s) (k : ℕ) (_ : k < w) :
    (v >>> s).getLsbD k = (decide (k < s) && v.getLsbD (k + s)) := by
  rw [BitVec.getLsbD_ushiftRight, Nat.add_comm s k]
  by_cases low : k < s
  · rw [decide_eq_true low, Bool.true_and]
  · rw [decide_eq_false low, Bool.false_and]
    exact BitVec.getLsbD_of_ge _ _ (by omega)

/-- The upper half of a signed value, shifted down and masked. -/
theorem getLsbD_upper_half_masked {w s : ℕ} {v mask : BitVec w} (two : w = s + s)
    (masks : ∀ k < w, mask.getLsbD k = decide (k < s)) (k : ℕ) (lt : k < w) :
    (v.sshiftRight s &&& mask).getLsbD k = (decide (k < s) && v.getLsbD (k + s)) := by
  rw [BitVec.getLsbD_and, masks k lt]
  by_cases low : k < s
  · rw [getLsbD_sshiftRight_of_lt v k (by omega), Bool.and_comm]
  · rw [decide_eq_false low, Bool.false_and, Bool.and_false]

/-- Both bytes of a value that has been promoted to `int`, exchanged and narrowed. -/
theorem narrowed_reverses {val : BitVec 16} {promoted down : BitVec 32}
    (same : ∀ k < 16, promoted.getLsbD k = val.getLsbD k)
    (shifted : ∀ k < 16, down.getLsbD k = (decide (k < 8) && promoted.getLsbD (k + 8))) :
    Reverses 2 val ((promoted <<< 8 ||| down).setWidth 16) := by
  intro k lt
  rw [BitVec.getLsbD_setWidth, BitVec.getLsbD_or, BitVec.getLsbD_shiftLeft, shifted k lt,
    decide_eq_true lt, Bool.true_and]
  by_cases low : k < 8
  · rw [show 8 * (2 - 1 - k / 8) + k % 8 = k + 8 by omega, ← same _ (by omega)]
    simp [low]
  · rw [same _ (by omega), show 8 * (2 - 1 - k / 8) + k % 8 = k - 8 by omega]
    simp [low, show k < 32 by omega]

theorem byteSwapUInt16_reverses (val : BitVec 16) : Reverses 2 val (byteSwapUInt16 val) := by
  apply narrowed_reverses
  · intro k lt
    simp [show k < 32 by omega]
  · intro k lt
    rw [getLsbD_sshiftRight_of_lt _ k (by omega)]
    by_cases low : k < 8
    · rw [decide_eq_true low, Bool.true_and]
    · rw [decide_eq_false low, Bool.false_and, BitVec.getLsbD_setWidth,
        BitVec.getLsbD_of_ge val (k + 8) (by omega), Bool.and_false]

theorem byteSwapInt16_reverses (val : BitVec 16) : Reverses 2 val (byteSwapInt16 val) := by
  have masks : ∀ k < 16, (0xFF : BitVec 32).getLsbD k = decide (k < 8) := by decide
  apply narrowed_reverses
  · intro k lt
    rw [BitVec.getLsbD_signExtend, if_pos lt, decide_eq_true (show k < 32 by omega), Bool.true_and]
  · intro k lt
    rw [BitVec.getLsbD_and, masks k lt, getLsbD_sshiftRight_of_lt _ k (by omega), Bool.and_comm]

/-- Exchanging bytes and then halves reverses four bytes. -/
theorem reverses_four {v u t : BitVec 32} (bytes : Exchanged 8 v u) (halves : Exchanged 16 u t) :
    Reverses 4 v t := by
  have within : ∀ k < 32, partner 16 k < 32 := by decide
  have whole : ∀ k < 32, partner 8 (partner 16 k) = 8 * (4 - 1 - k / 8) + k % 8 := by decide
  intro k lt
  rw [halves k lt, bytes _ (within k lt), whole k lt]

/-- Exchanging bytes, pairs of bytes and then halves reverses eight bytes. -/
theorem reverses_eight {v u t r : BitVec 64} (bytes : Exchanged 8 v u) (pairs : Exchanged 16 u t)
    (halves : Exchanged 32 t r) : Reverses 8 v r := by
  have within : ∀ k < 64, partner 32 k < 64 ∧ partner 16 (partner 32 k) < 64 := by decide
  have whole : ∀ k < 64, partner 8 (partner 16 (partner 32 k)) = 8 * (8 - 1 - k / 8) + k % 8 := by
    decide
  intro k lt
  rw [halves k lt, pairs _ (within k lt).1, bytes _ (within k lt).2, whole k lt]

/-- The masks for bytes of 32 bits. -/
theorem exchanged_bytes_four {v down : BitVec 32}
    (shifted : ∀ k, k + 8 < 32 → down.getLsbD k = v.getLsbD (k + 8)) :
    Exchanged 8 v ((v <<< 8 &&& 0xFF00FF00) ||| (down &&& 0xFF00FF)) :=
  exchanged_of_masks shifted (by decide) (by decide) (by decide)

/-- The masks for bytes of 64 bits. -/
theorem exchanged_bytes_eight {v down : BitVec 64}
    (shifted : ∀ k, k + 8 < 64 → down.getLsbD k = v.getLsbD (k + 8)) :
    Exchanged 8 v ((v <<< 8 &&& 0xFF00FF00FF00FF00) ||| (down &&& 0x00FF00FF00FF00FF)) :=
  exchanged_of_masks shifted (by decide) (by decide) (by decide)

/-- The masks for pairs of bytes of 64 bits. -/
theorem exchanged_pairs_eight {v down : BitVec 64}
    (shifted : ∀ k, k + 16 < 64 → down.getLsbD k = v.getLsbD (k + 16)) :
    Exchanged 16 v ((v <<< 16 &&& 0xFFFF0000FFFF0000) ||| (down &&& 0x0000FFFF0000FFFF)) :=
  exchanged_of_masks shifted (by decide) (by decide) (by decide)

theorem byteSwapUInt32_reverses (val : BitVec 32) : Reverses 4 val (byteSwapUInt32 val) := by
  apply reverses_four
  · exact exchanged_bytes_four (getLsbD_ushiftRight_of_lt val)
  · exact exchanged_halves rfl (getLsbD_upper_half _ rfl)

theorem byteSwapInt32_reverses (val : BitVec 32) : Reverses 4 val (byteSwapInt32 val) := by
  have mask : ∀ k < 32, (0xFFFF : BitVec 32).getLsbD k = decide (k < 16) := by decide
  apply reverses_four
  · exact exchanged_bytes_four (getLsbD_sshiftRight_of_lt val)
  · exact exchanged_halves rfl (getLsbD_upper_half_masked rfl mask)

theorem byteSwapUInt64_reverses (val : BitVec 64) : Reverses 8 val (byteSwapUInt64 val) := by
  apply reverses_eight
  · exact exchanged_bytes_eight (getLsbD_ushiftRight_of_lt val)
  · exact exchanged_pairs_eight (getLsbD_ushiftRight_of_lt _)
  · exact exchanged_halves rfl (getLsbD_upper_half _ rfl)

theorem byteSwapInt64_reverses (val : BitVec 64) : Reverses 8 val (byteSwapInt64 val) := by
  have mask : ∀ k < 64, (0xFFFFFFFF : BitVec 64).getLsbD k = decide (k < 32) := by decide
  apply reverses_eight
  · exact exchanged_bytes_eight (getLsbD_sshiftRight_of_lt val)
  · exact exchanged_pairs_eight (getLsbD_sshiftRight_of_lt _)
  · exact exchanged_halves rfl (getLsbD_upper_half_masked rfl mask)

/-! ### The bytes of a transformed integer -/

namespace IntType

/-- The number that the bytes of a transformed integer are the digits of. -/
def rank (t : IntType) (x : BitVec t.bits) : ℕ :=
  if t.signed then (x ^^^ BitVec.intMin t.bits).toNat else x.toNat

theorem bits_eq (t : IntType) : t.bits = 8 * t.size := by
  cases t <;> rfl

theorem rank_lt (t : IntType) (x : BitVec t.bits) : t.rank x < 256 ^ t.size := by
  have power : 2 ^ t.bits = 256 ^ t.size := by rw [bits_eq, pow_mul]; rfl
  rw [rank, ← power]
  cases t.signed with
  | false => exact x.isLt
  | true => exact (x ^^^ _).isLt

theorem rank_injective (t : IntType) (x y : BitVec t.bits) (same : t.rank x = t.rank y) : x = y := by
  rw [rank, rank] at same
  cases sign : t.signed with
  | false =>
      rw [sign] at same
      exact BitVec.eq_of_toNat_eq same
  | true =>
      rw [sign] at same
      exact (BitVec.xor_left_inj _).mp (BitVec.eq_of_toNat_eq same)

theorem less_iff (t : IntType) (x y : BitVec t.bits) : t.less x y = true ↔ t.rank x < t.rank y := by
  have positive : 0 < t.bits := by cases t <;> decide
  rw [less, rank, rank]
  cases t.signed with
  | false => exact BitVec.ult_iff_lt
  | true => exact slt_iff_flipped positive x y

end IntType

/-- On a big-endian host the bytes are the digits. -/
theorem bytes_bigEndian (size : ℕ) {w : ℕ} (val : BitVec w) :
    (Host.bytes .bigEndian size val).toList = bigEndian 256 size val.toNat := by
  rw [Host.bytes, Vector.toList_ofFn, bigEndian]

/-- On a little-endian host the bytes of the reversed value are the digits. -/
theorem bytes_littleEndian {size w : ℕ} {val swapped : BitVec w}
    (reverses : Reverses size val swapped) :
    (Host.bytes .littleEndian size swapped).toList = bigEndian 256 size val.toNat := by
  rw [Host.bytes, Vector.toList_ofFn, bigEndian]
  congr 1
  funext i
  exact reverses.digit i.isLt

/-- The bytes of a value that is swapped unless the host is big-endian. -/
theorem bytes_swapped (host : Host) {size w : ℕ} {val swapped : BitVec w}
    (reverses : Reverses size val swapped) :
    (host.bytes size (if host.isBigEndian then val else swapped)).toList
      = bigEndian 256 size val.toNat := by
  cases host with
  | littleEndian => exact bytes_littleEndian reverses
  | bigEndian => exact bytes_bigEndian size val

/-- The sign bit of a value that has been promoted to `int`, flipped, and the value narrowed. -/
theorem narrowed_flipped {w : ℕ} (le : w ≤ 32) (val : BitVec w) {bit : BitVec 32}
    (mask : bit.setWidth w = BitVec.intMin w) :
    (val.signExtend 32 ^^^ bit).setWidth w = val ^^^ BitVec.intMin w := by
  have same : (val.signExtend 32).setWidth w = val := by
    apply BitVec.eq_of_getLsbD_eq
    intro k lt
    rw [BitVec.getLsbD_setWidth, BitVec.getLsbD_signExtend, if_pos lt, decide_eq_true lt,
      decide_eq_true (lt.trans_le le), Bool.true_and, Bool.true_and]
  rw [BitVec.setWidth_xor, same, mask]

/-- The one byte of a small value. -/
theorem bytes_one (host : Host) (val : BitVec 8) :
    (host.bytes 1 val).toList = bigEndian 256 1 val.toNat := by
  have alone : Reverses 1 val val := by
    intro k lt
    congr 1
    omega
  cases host with
  | littleEndian => exact bytes_littleEndian alone
  | bigEndian => exact bytes_bigEndian 1 val

theorem bytes_int8 (host : Host) (val : BitVec 8) :
    (host.bytes 1 (keyTransformInt8 val)).toList
      = bigEndian 256 1 (val ^^^ BitVec.intMin 8).toNat := by
  rw [keyTransformInt8, narrowed_flipped (by decide) val (by decide)]
  exact bytes_one host _

theorem bytes_int16 (host : Host) (val : BitVec 16) :
    (host.bytes 2 (keyTransformInt16 host val)).toList
      = bigEndian 256 2 (val ^^^ BitVec.intMin 16).toNat := by
  rw [keyTransformInt16, narrowed_flipped (by decide) val (by decide)]
  exact bytes_swapped host (byteSwapInt16_reverses _)

/-- **The bytes of a transformed integer are the digits of its rank.** -/
theorem intBytes_eq (host : Host) (t : IntType) (x : BitVec t.bits) :
    (host.bytes t.size (t.keyTransform host x)).toList = bigEndian 256 t.size (t.rank x) := by
  cases t with
  | uint8 => exact bytes_one host x
  | uint16 => exact bytes_swapped host (byteSwapUInt16_reverses x)
  | uint32 => exact bytes_swapped host (byteSwapUInt32_reverses x)
  | uint64 => exact bytes_swapped host (byteSwapUInt64_reverses x)
  | int8 => exact bytes_int8 host x
  | int16 => exact bytes_int16 host x
  | int32 => exact bytes_swapped host (byteSwapInt32_reverses _)
  | int64 => exact bytes_swapped host (byteSwapInt64_reverses _)

/-! ### Key types -/

/-- What the comparison of the bytes decides. -/
structure Compared (t : KeyType) (x y : t.Value) (comparison : Ordering) : Prop where
  less : comparison = .lt ↔ t.less x y = true
  equal : comparison = .eq ↔ x = y
  greater : comparison = .gt ↔ t.less y x = true

/-- The first parts are compared, and the second parts when the first ones are equal. -/
theorem Compared.pair {first second : KeyType} {x y : first.Value × second.Value} {a b : Ordering}
    (front : Compared first x.1 y.1 a) (back : Compared second x.2 y.2 b) :
    Compared (.pair first second) x y (a.then b) := by
  have less : ∀ u v : first.Value × second.Value, KeyType.less (.pair first second) u v
      = (first.less u.1 v.1 || (!first.less v.1 u.1 && second.less u.2 v.2)) := fun _ _ => rfl
  have equal : x = y ↔ x.1 = y.1 ∧ x.2 = y.2 := Prod.ext_iff
  cases a with
  | lt =>
      have before : first.less x.1 y.1 = true := front.less.mp rfl
      have asymm : first.less y.1 x.1 = false :=
        Bool.eq_false_iff.mpr fun after => by cases front.greater.mpr after
      refine ⟨?_, ?_, ?_⟩
      · simp [less, before]
      · constructor
        · intro impossible
          cases impossible
        · intro same
          cases front.equal.mpr (equal.mp same).1
      · simp [less, before, asymm]
  | eq =>
      have same : x.1 = y.1 := front.equal.mp rfl
      have incomparable : first.less x.1 y.1 = false :=
        Bool.eq_false_iff.mpr fun before => by cases front.less.mpr before
      have incomparable' : first.less y.1 x.1 = false :=
        Bool.eq_false_iff.mpr fun after => by cases front.greater.mpr after
      refine ⟨?_, ?_, ?_⟩
      · simpa [less, incomparable, incomparable'] using back.less
      · exact (back.equal.trans (and_iff_right same).symm).trans equal.symm
      · simpa [less, incomparable, incomparable'] using back.greater
  | gt =>
      have after : first.less y.1 x.1 = true := front.greater.mp rfl
      have asymm : first.less x.1 y.1 = false :=
        Bool.eq_false_iff.mpr fun before => by cases front.less.mpr before
      refine ⟨?_, ?_, ?_⟩
      · simp [less, after, asymm]
      · constructor
        · intro impossible
          cases impossible
        · intro same
          cases front.equal.mpr (equal.mp same).1
      · simp [less, after]

/-- **The comparison of the bytes is that of the keys**, by induction on the key type. -/
theorem keyBytes_compare (host : Host) : ∀ (t : KeyType) (x y : t.Value),
    Compared t x y (lexCompare (t.keyBytes host x).toList (t.keyBytes host y).toList)
  | .int t, x, y => by
      have bytes : ∀ z : BitVec t.bits,
          (KeyType.keyBytes host (.int t) z).toList = bigEndian 256 t.size (t.rank z) :=
        fun z => intBytes_eq host t z
      rw [bytes x, bytes y, lexCompare_bigEndian 256 (t.rank_lt x) (t.rank_lt y)]
      refine ⟨?_, ?_, ?_⟩
      · exact Nat.compare_eq_lt.trans (t.less_iff x y).symm
      · exact Nat.compare_eq_eq.trans ⟨t.rank_injective x y, fun same => congrArg t.rank same⟩
      · exact Nat.compare_eq_gt.trans (t.less_iff y x).symm
  | .pair first second, x, y => by
      have front := keyBytes_compare host first x.1 y.1
      have back := keyBytes_compare host second x.2 y.2
      have lengths : (first.keyBytes host x.1).toList.length = (first.keyBytes host y.1).toList.length := by
        rw [Vector.length_toList, Vector.length_toList]
      have bytes : ∀ z : first.Value × second.Value,
          (KeyType.keyBytes host (.pair first second) z).toList
            = (first.keyBytes host z.1).toList ++ (second.keyBytes host z.2).toList :=
        fun z => Vector.toList_append
      rw [bytes x, bytes y, lexCompare_append _ _ _ _ lengths]
      exact front.pair back

/-- **Comparing the bytes of transformed keys is comparing the keys**, on either host and for every key
type; in particular distinct keys have distinct bytes. -/
theorem key_transform_order (host : Host) (t : KeyType) (x y : t.Value) :
    (lexCompare (t.keyBytes host x).toList (t.keyBytes host y).toList = .lt ↔ t.less x y = true) ∧
    (lexCompare (t.keyBytes host x).toList (t.keyBytes host y).toList = .eq ↔ x = y) ∧
    (lexCompare (t.keyBytes host x).toList (t.keyBytes host y).toList = .gt ↔ t.less y x = true) ∧
    (t.keyBytes host x = t.keyBytes host y ↔ x = y) := by
  have compared := keyBytes_compare host t x y
  refine ⟨compared.less, compared.equal, compared.greater, fun same => ?_, fun same => by rw [same]⟩
  apply compared.equal.mp
  rw [same, lexCompare_self]

end CppArt
