/-
**What `radix_map` and `radix_set` add to the trees.**

Most of their member functions forward to the tree `_M_t`. `erase` of a range is a loop of its own, over
the post-increment of an iterator and the `erase` of the tree. The relational operators of `radix_map`
are those of the trees, which compare the elements from `begin()` to `end()`; the values are pairs of a
key and a mapped value. `value_comp()` compares the transformed keys of two values byte by byte, whatever
tree the map is made of.
-/

import CppArt.Model.KeyTransform
import CppArt.Model.World

namespace CppArt

variable {H K T V : Type} {n : ℕ} [Variant H]

/-- `erase(first, last)`: `while (first != last) _M_t.erase(first++); return last;`. The first argument
bounds the number of rounds. -/
def eraseRange (tr : Traits K V n) : ℕ → Addr → Addr → Run H K V n Addr
  | 0, _, _ => throw .recursion
  | rounds + 1, first, last =>
      if first = last then pure last
      else do
        let next ← increment tr first
        let _ ← eraseAt tr first
        eraseRange tr rounds next last

/-! ### Relational operators -/

/-- The traits of a `radix_map`: a value is a pair of a key and a mapped value. -/
def Traits.map (keyTransform : K → Key n) (defaultKey : K) : Traits K (K × T) n where
  defaultTransform := keyTransform
  defaultKey := defaultKey
  keyOfValue := Prod.fst

/-- `==` of pairs: `x.first == y.first && x.second == y.second`. -/
def pairEqual [DecidableEq K] [DecidableEq T] (x y : K × T) : Bool :=
  decide (x.1 = y.1) && decide (x.2 = y.2)

/-- `<` of pairs: `x.first < y.first || (!(y.first < x.first) && x.second < y.second)`. -/
def pairLess [LT K] [LT T] [DecidableLT K] [DecidableLT T] (x y : K × T) : Bool :=
  decide (x.1 < y.1) || (!decide (y.1 < x.1) && decide (x.2 < y.2))

/-- A computation that reads the memory of some containers. -/
abbrev Query (H V α : Type) := EStateM Fault (Memory (Cell H V)) α

/-- A call on a container in the memory. -/
def onTree {α : Type} (tree : Tree K n) (call : Run H K V n α) : Query H V α := fun mem =>
  match call ⟨mem, tree⟩ with
  | .ok answer s => .ok answer s.mem
  | .error fault s => .error fault s.mem

section Operators

variable [LinearOrder K] [LinearOrder T] (tr : Traits K (K × T) n) (lhs rhs : Tree K n)

/-- `std::equal`: `for (; first1 != last1; ++first1, ++first2) if (!(*first1 == *first2)) return false;
return true;`. The first argument bounds the number of rounds. -/
def stdEqual : ℕ → Addr → Addr → Addr → Query H (K × T) Bool
  | 0, _, _, _ => throw .recursion
  | rounds + 1, first1, last1, first2 =>
      if first1 = last1 then pure true
      else do
        let x ← onTree lhs (leafValue first1)
        let y ← onTree rhs (leafValue first2)
        if pairEqual x y then do
          let next1 ← onTree lhs (increment tr first1)
          let next2 ← onTree rhs (increment tr first2)
          stdEqual rounds next1 last1 next2
        else pure false

/-- `std::lexicographical_compare`: `for (; first1 != last1 && first2 != last2; ++first1, ++first2) { if
(*first1 < *first2) return true; if (*first2 < *first1) return false; } return first1 == last1 &&
first2 != last2;`. The first argument bounds the number of rounds. -/
def lexicographicalCompare : ℕ → Addr → Addr → Addr → Addr → Query H (K × T) Bool
  | 0, _, _, _, _ => throw .recursion
  | rounds + 1, first1, last1, first2, last2 =>
      if first1 ≠ last1 ∧ first2 ≠ last2 then do
        let x ← onTree lhs (leafValue first1)
        let y ← onTree rhs (leafValue first2)
        if pairLess x y then pure true
        else if pairLess y x then pure false
        else do
          let next1 ← onTree lhs (increment tr first1)
          let next2 ← onTree rhs (increment tr first2)
          lexicographicalCompare rounds next1 last1 next2 last2
      else pure (decide (first1 = last1) && decide (first2 ≠ last2))

/-- `operator==`. -/
def operatorEq (rounds : ℕ) : Query H (K × T) Bool := do
  if lhs.count = rhs.count then do
    let first1 ← onTree lhs beginIt
    let last1 ← onTree lhs endIt
    let first2 ← onTree rhs beginIt
    stdEqual tr lhs rhs rounds first1 last1 first2
  else pure false

/-- `operator!=`: `!(lhs == rhs)`. -/
def operatorNe (rounds : ℕ) : Query H (K × T) Bool := do
  let equal ← operatorEq tr lhs rhs rounds
  pure !equal

/-- `operator<`. -/
def operatorLt (rounds : ℕ) : Query H (K × T) Bool := do
  let first1 ← onTree lhs beginIt
  let last1 ← onTree lhs endIt
  let first2 ← onTree rhs beginIt
  let last2 ← onTree rhs endIt
  lexicographicalCompare tr lhs rhs rounds first1 last1 first2 last2

/-- `operator>`: `rhs < lhs`. -/
def operatorGt (rounds : ℕ) : Query H (K × T) Bool := operatorLt tr rhs lhs rounds

/-- `operator<=`: `!(rhs < lhs)`. -/
def operatorLe (rounds : ℕ) : Query H (K × T) Bool := do
  let less ← operatorLt tr rhs lhs rounds
  pure !less

/-- `operator>=`: `!(lhs < rhs)`. -/
def operatorGe (rounds : ℕ) : Query H (K × T) Bool := do
  let less ← operatorLt tr lhs rhs rounds
  pure !less

end Operators

/-! ### `value_compare` -/

/-- The loop over `i` from `sizeof(transformed_key_type) - steps` on: `if (x_key.chunks[i] <
y_key.chunks[i]) return true; if (x_key.chunks[i] > y_key.chunks[i]) return false;`. -/
def compareChunks (xKey yKey : Key n) : ℕ → ℕ → Bool
  | 0, _ => false
  | steps + 1, i =>
      if xKey.letter i < yKey.letter i then true
      else if xKey.letter i > yKey.letter i then false
      else compareChunks xKey yKey steps (i + 1)

/-- `value_compare`, made with a transformer. -/
def valueCompare (keyTransformer : K → Key n) (x y : K × T) : Bool :=
  compareChunks (keyTransformer x.1) (keyTransformer y.1) n 0

/-- `value_comp`: `value_compare(_M_t.key_trans())`. -/
def valueComp (tree : Tree K n) : K × T → K × T → Bool := valueCompare tree.keyTransform

/-- The traits of a `radix_map` over an integer type with its default transformer. -/
def Traits.integerMap (host : Host) (t : IntType) (T : Type) : Traits (BitVec t.bits) (BitVec t.bits × T) t.size :=
  Traits.map (fun key => ⟨KeyType.keyBytes host (.int t) key⟩) 0

end CppArt
