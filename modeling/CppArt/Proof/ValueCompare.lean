/-
**`value_comp` and the order of the container.**

The byte loop of `value_compare` decides the lexicographic order of two transformed keys
(`compareChunks_spec`, by induction on the bytes that are left), which is the order of the iteration and,
for an integer type with its default transformer, the native order of the keys.

* `History.valueComp`: `value_comp` and the iteration after every history;
* `value_comp_order`: a `radix_map` over any of the integer types.
-/

import CppArt.Model.RadixMap
import CppArt.Proof.KeyTransform
import CppArt.Proof.Iteration

namespace CppArt

open Table

variable {H K T V : Type} {n : ℕ}

/-! ### The byte loop -/

/-- **The loop decides the order of two keys** that agree up to its first byte. -/
theorem compareChunks_spec (v w : Key n) : ∀ (steps i : ℕ), steps + i = n → Word.Agree i v w →
    (compareChunks v w steps i = true ↔ v < w)
  | 0, i, done, agree => by
      have same : v = w := Word.eq_of_agree_of_le agree (by omega)
      rw [compareChunks, same]
      exact iff_of_false Bool.false_ne_true (lt_irrefl w)
  | steps + 1, i, more, agree => by
      rw [compareChunks]
      by_cases less : v.letter i < w.letter i
      · rw [if_pos less]
        exact iff_of_true rfl (Word.lt_of_letter agree less)
      · rw [if_neg less]
        by_cases greater : v.letter i > w.letter i
        · rw [if_pos greater]
          exact iff_of_false Bool.false_ne_true (lt_asymm (Word.lt_of_letter agree.symm greater))
        · have here : v.letter i = w.letter i := le_antisymm (not_lt.mp greater) (not_lt.mp less)
          rw [if_neg greater]
          exact compareChunks_spec v w steps (i + 1) (by omega) (Word.agree_succ.mpr ⟨agree, here⟩)

/-- **`value_compare`** compares the transformed keys. -/
theorem valueCompare_iff (keyTransformer : K → Key n) (x y : K × T) :
    valueCompare keyTransformer x y = true ↔ keyTransformer x.1 < keyTransformer y.1 :=
  compareChunks_spec _ _ n 0 (Nat.add_zero n) (Word.agree_zero _ _)

/-! ### The iteration -/

/-- **An element comes before another one** in the list of the iterators that an iteration visits. -/
def Precedes (its : List Addr) (it it' : Addr) : Prop := [it, it'].Sublist its

/-- Of two members of a list one comes first. -/
theorem precedes_or_precedes {its : List Addr} {it it' : Addr} (member : it ∈ its) (member' : it' ∈ its)
    (differ : it ≠ it') : Precedes its it it' ∨ Precedes its it' it := by
  obtain ⟨front, back, rfl⟩ := List.append_of_mem member
  rcases List.mem_append.mp member' with before | after
  · right
    have rest : [it].Sublist (it :: back) := List.singleton_sublist.mpr List.mem_cons_self
    exact (List.singleton_sublist.mpr before).append rest
  · left
    have later : it' ∈ back := (List.mem_cons.mp after).resolve_left differ.symm
    exact ((List.singleton_sublist.mpr later).cons_cons it).trans (List.sublist_append_right front _)

/-- The value of an element. -/
theorem Stored.value_eq {s : St H K V n} {it : Addr} {v v' : V} (stored : Stored s it v)
    (stored' : Stored s it v') : v = v' := by
  obtain ⟨r, p, -, -, cell⟩ := stored
  obtain ⟨r', p', -, -, cell'⟩ := stored'
  rw [cell, Option.some.injEq, Cell.mk.injEq, Body.leaf.injEq] at cell'
  exact cell'.2

/-- In an iteration the smaller key comes first. -/
theorem Iterates.precedes_iff [Header H] {tr : Traits K V n} {s : St H K V n} {its : List Addr}
    {it it' : Addr} {x y : V} (iterates : Iterates tr s its) (stored : Stored s it x)
    (stored' : Stored s it' y) : Precedes its it it' ↔ tr.keyOf x < tr.keyOf y := by
  have ordered : ∀ {a b : Addr} {u v : V}, Precedes its a b → Stored s a u → Stored s b v →
      tr.keyOf u < tr.keyOf v := by
    intro a b u v first storedA storedB
    have pair := iterates.ascending.sublist first
    exact (List.pairwise_cons.mp pair).1 b List.mem_cons_self u v storedA storedB
  constructor
  · exact fun first => ordered first stored stored'
  · intro less
    have differ : it ≠ it' := by
      rintro rfl
      rw [stored.value_eq stored'] at less
      exact lt_irrefl _ less
    have member := (iterates.complete it).mpr ⟨x, stored⟩
    have member' := (iterates.complete it').mpr ⟨y, stored'⟩
    exact (precedes_or_precedes member member' differ).resolve_right fun after =>
      lt_asymm less (ordered after stored' stored)

/-- **`value_comp` after every history** is the order of the iteration and that of the transformed
keys. -/
theorem History.valueComp [Variant H] [HeaderSpec H] [LawfulVariant H] {tr : Traits K (K × T) n}
    {s : St H K (K × T) n} {m : Table Byte n (K × T)} (pairs : tr.keyOfValue = Prod.fst)
    (admits : Admits H n) (history : History tr s m) :
    (∃ its, Iterates tr s its) ∧
      (∀ x y, valueComp s.tree x y = true ↔ tr.keyOf x < tr.keyOf y) ∧
      ∀ its, Iterates tr s its → ∀ it it' x y, Stored s it x → Stored s it' y →
        (valueComp s.tree x y = true ↔ Precedes its it it') := by
  obtain ⟨e, M, own, holds, -⟩ := history.holds admits
  have decides : ∀ x y, CppArt.valueComp s.tree x y = true ↔ tr.keyOf x < tr.keyOf y := by
    intro x y
    unfold CppArt.valueComp
    rw [valueCompare_iff, holds.stateless, Traits.keyOf, Traits.keyOf, pairs]
  refine ⟨history.iterates admits, decides, fun its iterates it it' x y stored stored' => ?_⟩
  exact (decides x y).trans (iterates.precedes_iff stored stored').symm

/-! ### Integer keys -/

theorem IntType.size_le (t : IntType) : t.size ≤ 65536 := by
  cases t <;> decide

/-- **The transformed keys of integers** are in the order of the integers. -/
theorem keyOf_lt_iff (host : Host) (t : IntType) (T : Type) (x y : BitVec t.bits × T) :
    (Traits.integerMap host t T).keyOf x < (Traits.integerMap host t T).keyOf y ↔ t.less x.1 y.1 = true := by
  have compared := keyBytes_compare host (.int t) x.1 y.1
  have decided := Word.lexCompare_eq ((Traits.integerMap host t T).keyOf x)
    ((Traits.integerMap host t T).keyOf y)
  refine Iff.trans ?_ compared.less
  constructor
  · intro less
    rw [if_neg less.ne, if_pos less] at decided
    exact decided
  · intro less
    by_contra other
    rw [if_neg other] at decided
    have same : lexCompare (KeyType.keyBytes host (.int t) x.1).toList
        (KeyType.keyBytes host (.int t) y.1).toList = _ := decided
    rw [less] at same
    split_ifs at same

/-- Two integers that are not in order are the same. -/
theorem IntType.eq_iff (t : IntType) (x y : BitVec t.bits) :
    (t.less x y = false ∧ t.less y x = false) ↔ x = y := by
  rw [Bool.eq_false_iff, Bool.eq_false_iff, Ne, Ne, t.less_iff, t.less_iff]
  constructor
  · intro neither
    exact t.rank_injective x y (le_antisymm (not_lt.mp neither.2) (not_lt.mp neither.1))
  · rintro rfl
    exact ⟨lt_irrefl _, lt_irrefl _⟩

/-- **What `value_comp` of a map over an integer type does**: on its elements it is the order of the
iteration and the native order of the keys, and on all values a strict weak order whose equivalence is
equality of keys. -/
structure OrderedByKey [Variant H] (host : Host) (t : IntType) (T : Type)
    (s : St H (BitVec t.bits) (BitVec t.bits × T) t.size) : Prop where
  iterates : ∃ its, Iterates (Traits.integerMap host t T) s its
  elements : ∀ its, Iterates (Traits.integerMap host t T) s its → ∀ it it' x y, Stored s it x →
    Stored s it' y → (valueComp s.tree x y = true ↔ Precedes its it it') ∧
      (Precedes its it it' ↔ t.less x.1 y.1 = true)
  native : ∀ x y : BitVec t.bits × T, valueComp s.tree x y = t.less x.1 y.1
  irrefl : ∀ x : BitVec t.bits × T, valueComp s.tree x x = false
  trans : ∀ x y z : BitVec t.bits × T,
    valueComp s.tree x y = true → valueComp s.tree y z = true → valueComp s.tree x z = true
  equivalent : ∀ x y : BitVec t.bits × T,
    (valueComp s.tree x y = false ∧ valueComp s.tree y x = false) ↔ x.1 = y.1

/-- `value_comp` of a map over an integer type. -/
theorem History.orderedByKey [Variant H] [HeaderSpec H] [LawfulVariant H] {host : Host} {t : IntType}
    {T : Type} {s : St H (BitVec t.bits) (BitVec t.bits × T) t.size}
    {m : Table Byte t.size (BitVec t.bits × T)} (admits : Admits H t.size)
    (history : History (Traits.integerMap host t T) s m) : OrderedByKey host t T s := by
  obtain ⟨iterates, decides, precedes⟩ := history.valueComp rfl admits
  have native : ∀ x y : BitVec t.bits × T, CppArt.valueComp s.tree x y = t.less x.1 y.1 := by
    intro x y
    rw [Bool.eq_iff_iff, decides]
    exact keyOf_lt_iff host t T x y
  refine ⟨iterates, fun its visits it it' x y stored stored' => ?_, native, fun x => ?_,
    fun x y z first second => ?_, fun x y => ?_⟩
  · have same := precedes its visits it it' x y stored stored'
    refine ⟨same, same.symm.trans ?_⟩
    rw [native]
  · rw [Bool.eq_false_iff, Ne, decides]
    exact lt_irrefl _
  · rw [decides] at first second ⊢
    exact lt_trans first second
  · rw [native, native]
    exact t.eq_iff x.1 y.1

/-- **`value_comp` agrees with the order of the container**, for each integer type and either tree. -/
theorem value_comp_order (host : Host) (t : IntType) (T : Type) :
    (∀ (s : ArTree.State (BitVec t.bits) (BitVec t.bits × T) t.size)
      (m : Table Byte t.size (BitVec t.bits × T)),
      History (Traits.integerMap host t T) s m → OrderedByKey host t T s) ∧
    ∀ (s : ArPrefixTree.State (BitVec t.bits) (BitVec t.bits × T) t.size)
      (m : Table Byte t.size (BitVec t.bits × T)),
      History (Traits.integerMap host t T) s m → OrderedByKey host t T s :=
  ⟨fun _ _ history => history.orderedByKey trivial, fun _ _ history => history.orderedByKey t.size_le⟩

/-- Maps of either class with three keys of 16 bits. -/
theorem value_comp_order_three :
    (∃ s, insertAll (Traits.integerMap .littleEndian .int16 ℕ) [(5, 0), (-3, 1), (300, 2)]
        (blankState DepthHeader (Traits.integerMap .littleEndian .int16 ℕ)) = .ok ⟨⟩ s ∧
      OrderedByKey .littleEndian .int16 ℕ s) ∧
    ∃ s, insertAll (Traits.integerMap .littleEndian .int16 ℕ) [(5, 0), (-3, 1), (300, 2)]
        (blankState PrefixHeader (Traits.integerMap .littleEndian .int16 ℕ)) = .ok ⟨⟩ s ∧
      OrderedByKey .littleEndian .int16 ℕ s := by
  have fits : IntType.int16.size ≤ 65536 := by decide
  obtain ⟨s, run, history⟩ := insertAll_history (H := DepthHeader) trivial
    (Traits.integerMap .littleEndian .int16 ℕ) [(5, 0), (-3, 1), (300, 2)]
  obtain ⟨s', run', history'⟩ := insertAll_history (H := PrefixHeader) fits
    (Traits.integerMap .littleEndian .int16 ℕ) [(5, 0), (-3, 1), (300, 2)]
  exact ⟨⟨s, run, (value_comp_order _ _ _).1 s _ history⟩,
    s', run', (value_comp_order _ _ _).2 s' _ history'⟩

end CppArt
