/-
**The laws of `ar_prefix_tree`.**

The header of a node says how many bytes all keys below it share after its depth, and keeps the first
eight of them. There is a node only where two stored keys differ.

* `prefixMismatchPos_spec`: the position at which a key leaves the prefix of a node. The bytes that are
  not stored are read from the least key below the node;
* `splitPrefixIntoParent_spec`: a prefix is cut in two at the position of the mismatch, by one of two
  ways depending on its length;
* `splitLeaf_spec`: a leaf in the way gives way to one node with the shared bytes as its prefix;
* `compressNodeIntoChild_spec`: a node with one child left is merged into it.

`_prefix_length` never wraps, because a prefix is shorter than the key and a key has at most 65536
bytes.
-/

import CppArt.Proof.Laws
import CppArt.Model.ArPrefixTree

namespace CppArt

open Table

variable {K V : Type} {n : ℕ} {tr : Traits K V n} {k : Key n} {M : Contents n V}

/-- The stored bytes are those of a key from a depth on, as far as the prefix goes. -/
def PrefixHeader.Spells (h : PrefixHeader) (d : ℕ) (k : Key n) : Prop :=
  ∀ i < min h.prefixLength maxPrefixLength, h.stored[i]? = some (k.letter (d + i))

instance : HeaderSpec PrefixHeader where
  Admits n := n ≤ 65536
  Describes h d k := h.depth = d ∧ h.Spells d k
  Broad r S := ∃ v ∈ S, ∃ w ∈ S, v.letter r ≠ w.letter r
  depth_le := by
    rintro n h d k ⟨rfl, -⟩
    exact Nat.le_add_right _ _
  describes_congr := by
    rintro n h d k k' agree ⟨rfl, spells⟩
    refine ⟨rfl, fun i lt => ?_⟩
    have below : h.depth + i < branch h := Nat.add_lt_add_left (lt.trans_le (min_le_left _ _)) _
    rw [spells i lt, agree _ below]
  broad_mono := by
    rintro n r S S' sub ⟨v, inV, w, inW, differ⟩
    exact ⟨v, sub inV, w, sub inW, differ⟩
  broad_nontrivial := by
    rintro n r S ⟨v, inV, w, inW, differ⟩
    exact ⟨v, inV, w, inW, fun same => differ (congrArg (fun u => Word.letter u r) same)⟩
  not_broad := by
    rintro n h d r S - shared - lt ⟨v, inV, w, inW, differ⟩
    exact differ (shared v inV w inW r lt)

/-- A conversion to `uint16_t` that changes nothing. -/
theorem uint16_natCast {x : ℕ} (lt : x < 65536) : uint16 (x : ℤ) = x := by
  unfold uint16
  omega

theorem uint16_sub {x y : ℕ} (le : y ≤ x) (lt : x < 65536) : uint16 ((x : ℤ) - y) = x - y := by
  unfold uint16
  omega

theorem copyRange_ok {α : Type} {size size' : ℕ} (src : Vector α size) (dst : Vector α size')
    (first last dest : ℕ) (source : last ≤ size) (target : dest + (last - first) ≤ size') :
    ∃ dst', copyRange src first last dst dest = .ok dst' ∧ ∀ i < size',
      dst'[i]? = if dest ≤ i ∧ i < dest + (last - first) then src[first + (i - dest)]? else dst[i]? := by
  refine ⟨_, if_pos ⟨source, target⟩, fun i lt => ?_⟩
  rw [Vector.getElem?_ofFn, dif_pos lt]
  by_cases moved : dest ≤ i ∧ i < dest + (last - first)
  · have inside : first + (i - dest) < size := by omega
    simp [moved, inside]
  · simp [moved, lt, Vector.get_eq_getElem]

namespace ArPrefixTree

/-! ### Reading a prefix -/

section Read

variable {s : ArPrefixTree.State K V n} {a : Addr} {p : Option Addr} {h : PrefixHeader} {l : Layout}
  {d : ℕ}

/-- **Comparing bytes of a key with those of another**, from a position on. -/
theorem mismatchFrom_spec {byteAt : ℕ → Run PrefixHeader K V n Byte} {depth : ℕ} (w : Key n) :
    ∀ (count pos : ℕ), depth + (pos + count) ≤ n →
      (∀ i, pos ≤ i → i < pos + count → byteAt i s = .ok (w.letter (depth + i)) s) →
      (mismatchFrom k depth byteAt count pos s = .ok none s ∧
          ∀ i, pos ≤ i → i < pos + count → k.letter (depth + i) = w.letter (depth + i)) ∨
        ∃ j, pos ≤ j ∧ j < pos + count ∧ mismatchFrom k depth byteAt count pos s = .ok (some j) s ∧
          (∀ i, pos ≤ i → i < j → k.letter (depth + i) = w.letter (depth + i)) ∧
          k.letter (depth + j) ≠ w.letter (depth + j)
  | 0, pos, le, reads => .inl ⟨rfl, fun i ge lt => absurd lt (not_lt.mpr ge)⟩
  | count + 1, pos, le, reads => by
      have inside : depth + pos < n := by omega
      rw [mismatchFrom, Exec.bind_of_ok (chunkAt_ok k inside s),
        Exec.bind_of_ok (reads pos le_rfl (by omega))]
      by_cases same : k.letter (depth + pos) = w.letter (depth + pos)
      · rw [if_neg (not_not.mpr same)]
        have split : ∀ i, pos ≤ i → i = pos ∨ pos + 1 ≤ i := fun i ge => by omega
        rcases mismatchFrom_spec w count (pos + 1) (by omega)
            (fun i ge lt => reads i (by omega) (by omega)) with ⟨run, equal⟩ | ⟨j, ge, lt, run, equal, differ⟩
        · refine .inl ⟨run, fun i ge lt => ?_⟩
          rcases split i ge with rfl | later
          · exact same
          · exact equal i later (by omega)
        · refine .inr ⟨j, by omega, by omega, run, fun i ge' lt' => ?_, differ⟩
          rcases split i ge' with rfl | later
          · exact same
          · exact equal i later lt'
      · rw [if_pos same]
        exact .inr ⟨pos, le_rfl, by omega, rfl, fun i ge lt => absurd lt (not_lt.mpr ge), same⟩

theorem storedAt_ok {w : Key n} {i : ℕ} (spells : h.Spells d w)
    (lt : i < min h.prefixLength maxPrefixLength) :
    (storedAt h i : Run PrefixHeader K V n Byte) s = .ok (w.letter (d + i)) s := by
  unfold storedAt
  rw [spells i lt]
  rfl

/-- **`pes_prefix_mismatch_pos`** compares the stored bytes only. -/
theorem pesPrefixMismatchPos_spec {w : Key n} (cell : s.mem.get a = some ⟨p, .inner h l⟩)
    (bound : branch h < n) (spells : h.Spells h.depth w) :
    pesPrefixMismatchPos a k s = .ok h.prefixLength s ∨
      ∃ j, j < min h.prefixLength maxPrefixLength ∧ pesPrefixMismatchPos a k s = .ok j s ∧
        k.letter (h.depth + j) ≠ w.letter (h.depth + j) := by
  have le : h.depth + h.prefixLength < n := bound
  have short : min h.prefixLength maxPrefixLength ≤ h.prefixLength := min_le_left _ _
  unfold pesPrefixMismatchPos
  rw [Exec.bind_of_ok (headerOf_ok cell)]
  rcases mismatchFrom_spec (s := s) (k := k) w (min h.prefixLength maxPrefixLength) 0 (by omega)
    (fun i _ lt => storedAt_ok spells (by omega)) with ⟨run, -⟩ | ⟨j, -, lt, run, -, differ⟩
  · rw [Exec.bind_of_ok run]
    exact .inl rfl
  · rw [Exec.bind_of_ok run]
    exact .inr ⟨j, by omega, rfl, differ⟩

/-- **The least key below a node.** -/
theorem minKey_spec {p : Addr} {m : Contents n V} {own : Set Addr} (rep : Rep tr s.mem p a d m own) :
    ∃ w ∈ dom m, minKey tr a s = .ok w s := by
  obtain ⟨w, it, v, run, entry, -⟩ := extreme_spec rep .up
  obtain ⟨key, -, q, leaf⟩ := rep.leaf_cell entry
  refine ⟨w, mem_dom_of_eq_some entry, ?_⟩
  unfold minKey
  rw [Exec.bind_of_ok run, Exec.bind_of_ok (leafValue_ok leaf)]
  exact congrArg (fun u => EStateM.Result.ok u s) key

/-- **`prefix_mismatch_pos`** compares the key with the least one below the node. -/
theorem prefixMismatchPos_run {w : Key n} (cell : s.mem.get a = some ⟨p, .inner h l⟩)
    (least : minKey tr a s = .ok w s) (spells : h.Spells h.depth w) (bound : branch h < n) :
    ∃ pos, prefixMismatchPos tr a k s = .ok pos s ∧
      (∀ i < pos, k.letter (h.depth + i) = w.letter (h.depth + i)) ∧
      (pos = h.prefixLength ∨
        (pos < h.prefixLength ∧ k.letter (h.depth + pos) ≠ w.letter (h.depth + pos))) := by
  have le : h.depth + h.prefixLength < n := bound
  unfold prefixMismatchPos
  rw [Exec.bind_of_ok (headerOf_ok cell)]
  have short : min h.prefixLength maxPrefixLength ≤ h.prefixLength := min_le_left _ _
  rcases mismatchFrom_spec (s := s) (k := k) w (min h.prefixLength maxPrefixLength) 0 (by omega)
    (fun i _ lt => storedAt_ok spells (by omega)) with ⟨run, equal⟩ | ⟨j, -, lt, run, equal, differ⟩
  · rw [Exec.bind_of_ok run]
    simp only []
    by_cases long : maxPrefixLength < h.prefixLength
    · have stored : min h.prefixLength maxPrefixLength = maxPrefixLength := min_eq_right long.le
      rw [stored] at equal
      rw [if_pos long, Exec.bind_of_ok least]
      rcases mismatchFrom_spec (s := s) (k := k) w (h.prefixLength - maxPrefixLength) maxPrefixLength
          (by omega) (fun i _ lt => chunkAt_ok (i := h.depth + i) w (by omega) s) with
        ⟨run', equal'⟩ | ⟨j, ge, lt, run', equal', differ⟩
      · rw [Exec.bind_of_ok run']
        refine ⟨h.prefixLength, rfl, fun i lt => ?_, .inl rfl⟩
        by_cases early : i < maxPrefixLength
        · exact equal i (Nat.zero_le i) (by omega)
        · exact equal' i (not_lt.mp early) (by omega)
      · rw [Exec.bind_of_ok run']
        refine ⟨j, rfl, fun i lt' => ?_, .inr ⟨by omega, differ⟩⟩
        by_cases early : i < maxPrefixLength
        · exact equal i (Nat.zero_le i) (by omega)
        · exact equal' i (not_lt.mp early) lt'
    · have all : min h.prefixLength maxPrefixLength = h.prefixLength := min_eq_left (not_lt.mp long)
      rw [all] at equal
      rw [if_neg long]
      exact ⟨h.prefixLength, rfl, fun i lt => equal i (Nat.zero_le i) (by omega), .inl rfl⟩
  · rw [Exec.bind_of_ok run]
    exact ⟨j, rfl, fun i lt' => equal i (Nat.zero_le i) lt', .inr ⟨by omega, differ⟩⟩

/-- **`prefix_mismatch_pos`**: the first byte of the prefix that is not the key's, or its length. -/
theorem prefixMismatchPos_spec {p : Addr} {m : Contents n V} {own : Set Addr}
    (rep : Rep tr s.mem p a d m own) (cell : s.mem.get a = some ⟨some p, .inner h l⟩)
    (agree : ∀ v ∈ dom m, Word.Agree d k v) :
    h.depth = d ∧ ∃ pos, prefixMismatchPos tr a k s = .ok pos s ∧
      ((pos = h.prefixLength ∧ ∀ v ∈ dom m, Word.Agree (branch h) k v) ∨
        (pos < h.prefixLength ∧ ∀ v ∈ dom m, Word.Agree (d + pos) k v ∧
          k.letter (d + pos) ≠ v.letter (d + pos))) := by
  obtain ⟨wf, bound, shared, describes⟩ : l.WF ∧ branch h < n ∧
      (∀ v ∈ dom m, ∀ w ∈ dom m, Word.Agree (branch h) v w) ∧ ∀ v ∈ dom m, Describes h d v := by
    rcases rep.inspect with ⟨v, cell', -, -⟩ | ⟨h', l', cell', wf, bound, -, shared, describes⟩
    · rw [cell] at cell'
      cases cell'
    · rw [cell] at cell'
      cases cell'
      exact ⟨wf, bound, shared, describes⟩
  obtain ⟨w, member, least⟩ := minKey_spec rep
  obtain ⟨rfl, spells⟩ := describes w member
  obtain ⟨pos, run, equal, ends⟩ := prefixMismatchPos_run (k := k) cell least spells bound
  -- agreement with the least key is agreement with all of them
  have matched : pos ≤ h.prefixLength → ∀ v ∈ dom m, Word.Agree (h.depth + pos) k v := by
    intro inside v inM
    refine Word.Agree.trans ((Word.agree_iff_of_le (Nat.le_add_right _ _)).mpr ⟨agree w member, ?_⟩)
      ((shared w member v inM).mono (Nat.add_le_add_left inside _))
    intro i ge lt
    obtain ⟨i, rfl⟩ := Nat.exists_eq_add_of_le ge
    exact equal i (by omega)
  refine ⟨rfl, pos, run, ?_⟩
  rcases ends with rfl | ⟨inside, differ⟩
  · exact .inl ⟨rfl, matched le_rfl⟩
  · refine .inr ⟨inside, fun v inM => ⟨matched inside.le v inM, ?_⟩⟩
    rw [← shared w member v inM _ (Nat.add_lt_add_left inside _)]
    exact differ

end Read

/-! ### Cutting a prefix in two -/

section Split

variable {s : ArPrefixTree.State K V n} {a p : Addr} {h : PrefixHeader} {l : Layout} {d pos : ℕ}

/-- The two parts of a prefix that is cut before the byte at `pos`. -/
structure Cut (h : PrefixHeader) (pos : ℕ) (w : Key n) (above below : PrefixHeader) : Prop where
  depthAbove : above.depth = h.depth
  lengthAbove : above.prefixLength = pos
  spellsAbove : above.Spells h.depth w
  depthBelow : below.depth = h.depth + pos + 1
  branchBelow : branch below = branch h
  spellsBelow : below.Spells (h.depth + pos + 1) w

/-- The new node above and the old one below get their headers. -/
theorem setHeaders_spec {g : Addr} {p₁ p₂ : Option Addr} {h₁ h₂ : PrefixHeader} {l₁ l₂ : Layout}
    (cellG : s.mem.get g = some ⟨p₁, .inner h₁ l₁⟩) (cellA : s.mem.get a = some ⟨p₂, .inner h₂ l₂⟩)
    (apart : g ≠ a) (above below : PrefixHeader) :
    ∃ mem', (do
        setHeader g above
        setHeader a below
        pure g : Run PrefixHeader K V n Addr) s = .ok g (s.withMem mem') ∧
      mem'.get g = some ⟨p₁, .inner above l₁⟩ ∧ mem'.get a = some ⟨p₂, .inner below l₂⟩ ∧
      mem'.next = s.mem.next ∧ mem'.failAt = s.mem.failAt ∧
      ∀ x, x ≠ g → x ≠ a → mem'.get x = s.mem.get x := by
  let mem₁ := s.mem.set g ⟨p₁, .inner above l₁⟩
  have cellA₁ : mem₁.get a = _ := (Memory.set_get_of_ne _ _ apart.symm).trans cellA
  refine ⟨mem₁.set a ⟨p₂, .inner below l₂⟩, ?_, ?_, Memory.set_get_self cellA₁ _, rfl, rfl,
    fun x notG notA => (Memory.set_get_of_ne _ _ notA).trans (Memory.set_get_of_ne _ _ notG)⟩
  · rw [Exec.bind_of_ok (setHeader_ok cellG _)]
    exact Exec.bind_of_ok (setHeader_ok (s := s.withMem mem₁) cellA₁ _) _
  · exact (Memory.set_get_of_ne _ _ apart).trans (Memory.set_get_self cellG _)

/-- The headers of a prefix of at most seven bytes, which are all stored. -/
theorem cut_short {w : Key n} (spells : h.Spells h.depth w) (inside : pos < h.prefixLength)
    (short : h.prefixLength < maxPrefixLength) :
    ∃ front rest, copyRange h.stored 0 pos (plainHeader h.depth).stored 0 = .ok front ∧
      memmove h.stored (pos + 1) maxPrefixLength 0 = .ok rest ∧
      Cut h pos w ⟨h.depth, uint16 pos, front⟩
        ⟨h.depth + (pos + 1), uint16 (h.prefixLength - (pos + 1)), rest⟩ := by
  have few : h.prefixLength < 8 := short
  obtain ⟨front, copied, readFront⟩ := copyRange_ok h.stored (plainHeader h.depth).stored
    0 pos 0 (by omega) (by omega)
  obtain ⟨rest, moved, readRest⟩ := memmove_ok h.stored (pos + 1) maxPrefixLength
    0 le_rfl (by omega)
  have lengthFront : uint16 pos = pos := uint16_natCast (by omega)
  have lengthRest : uint16 ((h.prefixLength : ℤ) - (pos + 1)) = h.prefixLength - (pos + 1) :=
    uint16_sub inside (by omega)
  refine ⟨front, rest, copied, moved, rfl, lengthFront, fun i lt => ?_, by simp [Nat.add_assoc], ?_,
    fun i lt => ?_⟩
  · have lt' : i < pos := (lt.trans_le (min_le_left _ _)).trans_eq lengthFront
    show front[i]? = _
    rw [readFront i (by omega), if_pos ⟨Nat.zero_le i, by omega⟩, spells _ (by simp; omega)]
    simp
  · show h.depth + (pos + 1) + uint16 _ = h.depth + h.prefixLength
    rw [lengthRest]
    omega
  · have lt' : i < h.prefixLength - (pos + 1) := (lt.trans_le (min_le_left _ _)).trans_eq lengthRest
    show rest[i]? = _
    rw [readRest i (by omega), if_pos ⟨Nat.zero_le i, by omega⟩, spells _ (by simp; omega)]
    congr 2
    omega

/-- The headers of a longer prefix, whose rest is read from the key of a leaf. -/
theorem cut_long {w : Key n} (spells : h.Spells h.depth w) (inside : pos < h.prefixLength)
    (bound : branch h < n) (typed : h.prefixLength < 65536)
    (long : ¬ h.prefixLength < maxPrefixLength) :
    ∃ rest, copyRange w.chunks (h.depth + pos + 1) (h.depth + pos + 1 + min maxPrefixLength
        (h.prefixLength - (pos + 1))) h.stored 0 = .ok rest ∧
      Cut h pos w ⟨h.depth, uint16 pos, h.stored⟩
        ⟨h.depth + (pos + 1), uint16 (h.prefixLength - (pos + 1)), rest⟩ := by
  have le : h.depth + h.prefixLength < n := bound
  obtain ⟨rest, copied, readRest⟩ := copyRange_ok w.chunks h.stored (h.depth + pos + 1)
    (h.depth + pos + 1 + min maxPrefixLength (h.prefixLength - (pos + 1))) 0
    (by omega) (by omega)
  have lengthFront : uint16 pos = pos := uint16_natCast (by omega)
  have lengthRest : uint16 ((h.prefixLength : ℤ) - (pos + 1)) = h.prefixLength - (pos + 1) :=
    uint16_sub inside (by omega)
  refine ⟨rest, copied, rfl, lengthFront, fun i lt => spells i ?_, by simp [Nat.add_assoc], ?_,
    fun i lt => ?_⟩
  · have lt' : i < min pos maxPrefixLength := by rwa [← lengthFront]
    omega
  · show h.depth + (pos + 1) + uint16 _ = h.depth + h.prefixLength
    rw [lengthRest]
    omega
  · have lt' : i < min (h.prefixLength - (pos + 1)) maxPrefixLength := by rwa [← lengthRest]
    show rest[i]? = _
    rw [readRest i (by omega), if_pos ⟨Nat.zero_le i, by omega⟩,
      Word.chunks_getElem?_of_lt w (by omega), Nat.sub_zero]

/-- **`split_prefix_into_parent`**: a new node above takes the bytes before `pos`. -/
theorem splitPrefixIntoParent_run {w : Key n} (cell : s.mem.get a = some ⟨some p, .inner h l⟩)
    (least : minKey tr a s = .ok w s) (spells : h.Spells h.depth w) (bound : branch h < n)
    (typed : h.prefixLength < 65536) (inside : pos < h.prefixLength) (calm : s.mem.failAt = none) :
    ∃ mem' above below,
      splitPrefixIntoParent tr a pos s = .ok s.mem.next (s.withMem mem') ∧
      Cut h pos w above below ∧
      mem'.get s.mem.next = some ⟨some p, .inner above (.oneWay (w.letter (h.depth + pos)) a)⟩ ∧
      mem'.get a = some ⟨some s.mem.next, .inner below l⟩ ∧ mem'.next = s.mem.next + 1 ∧
      mem'.failAt = none ∧ ∀ x, x ≠ a → x < s.mem.next → mem'.get x = s.mem.get x := by
  have le : h.depth + h.prefixLength < n := bound
  have fresh : s.mem.next ≠ a := (Memory.lt_next_of_get cell).ne'
  obtain ⟨mem₁, run, cellG, cellA, next₁, calm₁, kept₁⟩ := newOneWay_spec cell calm
    (w.letter (h.depth + pos)) (plainHeader h.depth)
  -- the new node and the two headers, whichever way they are computed
  suffices computed : ∃ above below, Cut h pos w above below ∧
      ∀ {s₁ : ArPrefixTree.State K V n} {result}, (do
          let newNode ← newOneWay a (w.letter (h.depth + pos)) (plainHeader h.depth)
          setHeader newNode above
          setHeader a below
          pure newNode : Run PrefixHeader K V n Addr) s = .ok result s₁ →
        splitPrefixIntoParent tr a pos s = .ok result s₁ by
    obtain ⟨above, below, cut, unfolded⟩ := computed
    obtain ⟨mem₂, run₂, cellG₂, cellA₂, next₂, calm₂, kept₂⟩ :=
      setHeaders_spec (s := s.withMem mem₁) cellG cellA fresh above below
    exact ⟨mem₂, above, below, unfolded ((Exec.bind_of_ok run _).trans run₂), cut, cellG₂,
      cellA₂, next₂.trans next₁, calm₂.trans calm₁, fun x notA lt =>
        (kept₂ x lt.ne notA).trans (kept₁ x notA lt)⟩
  by_cases short : h.prefixLength < maxPrefixLength
  · obtain ⟨front, rest, copied, moved, cut⟩ := cut_short spells inside short
    refine ⟨_, _, cut, fun {s₁ result} run => ?_⟩
    unfold splitPrefixIntoParent
    rw [Exec.bind_of_ok (headerOf_ok cell), if_pos short,
      Exec.bind_of_ok (storedAt_ok spells (lt_min inside (inside.trans short)))]
    simp only [copied, moved]
    exact run
  · obtain ⟨rest, copied, cut⟩ := cut_long spells inside bound typed short
    refine ⟨_, _, cut, fun {s₁ result} run => ?_⟩
    unfold splitPrefixIntoParent
    rw [Exec.bind_of_ok (headerOf_ok cell), if_neg short, Exec.bind_of_ok least,
      Exec.bind_of_ok (chunkAt_ok (i := h.depth + pos) w (by omega) s)]
    simp only [copied]
    exact run

/-- The split of a node that represents a table. -/
theorem splitPrefixIntoParent_spec {m : Contents n V} {own : Set Addr} (admits : n ≤ 65536)
    (rep : Rep tr s.mem p a d m own) (cell : s.mem.get a = some ⟨some p, .inner h l⟩)
    (inside : pos < h.prefixLength) (calm : s.mem.failAt = none) :
    ∃ w ∈ dom m, ∃ mem' above below,
      splitPrefixIntoParent tr a pos s = .ok s.mem.next (s.withMem mem') ∧
      Cut h pos w above below ∧
      mem'.get s.mem.next = some ⟨some p, .inner above (.oneWay (w.letter (h.depth + pos)) a)⟩ ∧
      mem'.get a = some ⟨some s.mem.next, .inner below l⟩ ∧ mem'.next = s.mem.next + 1 ∧
      mem'.failAt = none ∧ ∀ x, x ≠ a → x < s.mem.next → mem'.get x = s.mem.get x := by
  obtain ⟨w, member, least⟩ := minKey_spec rep
  obtain ⟨bound, spells⟩ : branch h < n ∧ h.Spells h.depth w := by
    rcases rep.inspect with ⟨v, cell', -, -⟩ | ⟨h', l', cell', wf, bound, -, -, describes⟩
    · rw [cell] at cell'
      cases cell'
    · rw [cell] at cell'
      cases cell'
      exact ⟨bound, (describes w member).1 ▸ (describes w member).2⟩
  have le : h.depth + h.prefixLength < n := bound
  exact ⟨w, member, splitPrefixIntoParent_run cell least spells bound (by omega) inside calm⟩

theorem Cut.branchAbove {w : Key n} {above below : PrefixHeader} (cut : Cut h pos w above below) :
    branch above = h.depth + pos := by
  show above.depth + above.prefixLength = _
  rw [cut.depthAbove, cut.lengthAbove]

theorem Cut.describesAbove {w : Key n} {above below : PrefixHeader} (cut : Cut h pos w above below)
    (agree : Word.Agree (h.depth + pos) w k) : Describes above h.depth k :=
  HeaderSpec.describes_congr (by rwa [cut.branchAbove]) (show Describes above h.depth w from
    ⟨cut.depthAbove, cut.spellsAbove⟩)

theorem Cut.describesBelow {w : Key n} {above below : PrefixHeader} (cut : Cut h pos w above below)
    (agree : Word.Agree (branch h) w k) : Describes below (h.depth + pos + 1) k :=
  HeaderSpec.describes_congr (by rwa [cut.branchBelow]) (show Describes below _ w from
    ⟨cut.depthBelow, cut.spellsBelow⟩)

/-- **Insertion at an inner node**: the key agrees with its prefix, or the prefix is cut where the key
leaves it. -/
theorem enter_spec {e : Addr} {own rest : Set Addr} (admits : n ≤ 65536)
    (ctx : Ctx tr s.mem s.tree.dummyNode e s.tree.root k M (dom M) p a d own)
    (rep : Rep tr s.mem p a d (under M k d) rest) (clear : Disjoint own rest)
    (cell : s.mem.get a = some ⟨some p, .inner h l⟩) (calm : s.mem.failAt = none) :
    (enter tr a k d s = .ok (a, branch h) s ∧
        ∀ v ∈ dom (under M k d), Word.Agree (branch h) k v) ∨
      ∃ q r s' own', enter tr a k d s = .ok (q, r) s' ∧ Opened tr s' e k M q r own' ∧
        s.Frame s' (own ∪ rest) ∧ Memory.Renews s.mem s'.mem (own ∪ rest) own' := by
  obtain ⟨rfl, pos, run, found⟩ :=
    prefixMismatchPos_spec rep cell fun v member => (mem_dom_under.mp member).1
  have unfolded : enter tr a k h.depth s = (if pos < h.prefixLength then do
      let newNode ← splitPrefixIntoParent tr a pos
      let parent ← deref (← parentOf newNode)
      updateChildPtr parent newNode k
      pure (newNode, h.depth + pos)
    else pure (a, h.depth + pos) : Run PrefixHeader K V n (Addr × ℕ)) s := by
    unfold enter
    rw [Exec.bind_of_ok run, Exec.bind_of_ok (headerOf_ok cell)]
  rw [unfolded]
  rcases found with ⟨rfl, agree⟩ | ⟨inside, departs⟩
  · rw [if_neg (lt_irrefl _)]
    exact .inl ⟨rfl, agree⟩
  · right
    rw [if_pos inside]
    obtain ⟨w, member, mem₁, above, below, split, cut, cellG, cellA, next₁, calm₁, kept₁⟩ :=
      splitPrefixIntoParent_spec admits rep cell inside calm
    obtain ⟨bound, shared⟩ : branch h < n ∧ ∀ v ∈ dom (under M k h.depth), ∀ w ∈ dom (under M k h.depth),
        Word.Agree (branch h) v w := by
      rcases rep.inspect with ⟨v, cell', -, -⟩ | ⟨h', l', cell', wf, bound, -, shared, -⟩
      · rw [cell] at cell'
        cases cell'
      · rw [cell] at cell'
        cases cell'
        exact ⟨bound, shared⟩
    have deeper : h.depth + pos < branch h := Nat.add_lt_add_left inside _
    have older : ∀ x ∈ own, x < s.mem.next := fun x inside => ctx.lt_next inside
    have offA : a ∉ own := fun inside => Set.disjoint_left.mp clear inside rep.top_mem
    have fresh : s.mem.next ∉ own := fun inside => absurd (older _ inside) (lt_irrefl _)
    have freshRest : s.mem.next ∉ rest := fun inside => absurd (rep.lt_next inside) (lt_irrefl _)
    have ctx₁ : Ctx tr mem₁ s.tree.dummyNode e s.tree.root k M (insert k (dom M)) p a h.depth own :=
      (ctx.frame fun x inside => kept₁ x (fun same => offA (same ▸ inside)) (older x inside)).anticipate
    obtain ⟨s₂, redirected, ctx₂, frame₂, next₂⟩ :=
      updateChildPtr_spec (s := s.withMem mem₁) ctx₁ (Word.Agree.refl h.depth k) s.mem.next
    have kept₂ : ∀ x, x ∉ own → x < s.mem.next + 1 → s₂.mem.get x = mem₁.get x := fun x outside lt =>
      frame₂.keeps.get x (fun inside => outside (ctx₁.links_subset inside)) (lt.trans_eq next₁.symm)
    have olderA := Memory.lt_next_of_get cell
    have rep₂ : Rep tr s₂.mem s.mem.next a (branch above + 1) (under M k h.depth) rest := by
      rw [cut.branchAbove]
      refine rep.rehead cell ((kept₂ a offA (olderA.trans (Nat.lt_succ_self _))).trans cellA)
        cut.branchBelow (fun v inM => cut.describesBelow (shared w member v inM)) fun x inside => ?_
      have lt := rep.lt_next inside.1
      have outside : x ∉ own := fun inOwn => Set.disjoint_left.mp clear inOwn inside.1
      exact (kept₂ x outside (lt.trans (Nat.lt_succ_self _))).trans (kept₁ x inside.2 lt)
    have bound' : branch above < n := cut.branchAbove ▸ deeper.trans bound
    have opened : Opened tr s₂ e k M s.mem.next (branch above) (own ∪ insert s.mem.next rest) := by
      refine .above (b := w.letter (h.depth + pos)) ctx₂ ?_ bound'
        (cut.describesAbove (departs w member).1.symm) ?_ ?_ rep₂ ?_ ?_ freshRest
      · exact (kept₂ _ fresh (Nat.lt_succ_self _)).trans cellG
      · rw [cut.branchAbove]
        exact (departs w member).2.symm
      · rw [cut.branchAbove]
        exact fun v inM => ⟨(departs v inM).1, shared v inM w member _ deeper⟩
      · rw [cut.branchAbove]
        have split := mem_dom_under.mp member
        exact ⟨k, ⟨Word.Agree.refl _ k, Or.inl rfl⟩, w, ⟨split.1, Or.inr split.2⟩, (departs w member).2⟩
      · rw [Set.disjoint_insert_right]
        exact ⟨fresh, clear⟩
    have first : s.Frame (s.withMem mem₁) (own ∪ rest) :=
      ⟨⟨next₁ ▸ Nat.le_succ _, calm₁.trans calm.symm, fun x outside lt =>
        kept₁ x (fun same => outside (Or.inr (same ▸ rep.top_mem))) lt⟩, rfl, rfl, rfl⟩
    refine ⟨s.mem.next, h.depth + pos, s₂, own ∪ insert s.mem.next rest, ?_, cut.branchAbove ▸ opened,
      first.trans (frame₂.mono ctx₁.links_subset) fun x inside => .inl (Or.inl inside), ?_⟩
    · refine (Exec.bind_of_ok split _).trans ?_
      refine (Exec.bind_of_ok (parentOf_ok (s := s.withMem mem₁) cellG) _).trans ?_
      exact Exec.bind_of_ok redirected _
    · have both := Memory.Renews.of_next_succ (own ∪ rest) (next₂.trans next₁)
      rwa [Set.union_assoc, Set.union_singleton] at both

end Split

/-! ### A leaf in the way -/

/-- The header of the node for two keys that agree up to a byte. -/
theorem sharedHeader_spec {d r : ℕ} (admits : n ≤ 65536) (le : d ≤ r) (bound : r < n) :
    ∃ front, copyRange k.chunks d (d + min (uint16 ((r : ℤ) - d)) maxPrefixLength)
        (plainHeader d).stored 0 = .ok front ∧
      branch (⟨d, uint16 ((r : ℤ) - d), front⟩ : PrefixHeader) = r ∧
      Describes (⟨d, uint16 ((r : ℤ) - d), front⟩ : PrefixHeader) d k := by
  have length : uint16 ((r : ℤ) - d) = r - d := uint16_sub le (by omega)
  obtain ⟨front, copied, read⟩ := copyRange_ok k.chunks (plainHeader d).stored d
    (d + min (r - d) maxPrefixLength) 0 (by omega) (by omega)
  rw [length]
  refine ⟨front, copied, Nat.add_sub_cancel' le, rfl, fun i lt => ?_⟩
  have lt' : i < min (r - d) maxPrefixLength := lt
  show front[i]? = _
  rw [read i (by omega), if_pos ⟨Nat.zero_le i, by omega⟩, Word.chunks_getElem?_of_lt k (by omega),
    Nat.sub_zero]

section Leaf

variable {s : ArPrefixTree.State K V n} {p c e : Addr} {v : V} {d r : ℕ} {own : Set Addr}

/-- The loop passes over the bytes on which the keys agree. -/
theorem tiebreak_skip {existingKey : Key n} (bound : r < n) (agree : Word.Agree r k existingKey) :
    ∀ gap steps j : ℕ, j + gap = r → gap < steps →
      ∃ steps', tiebreak c existingKey k d steps j s = tiebreak c existingKey k d (steps' + 1) r s
  | 0, steps, j, here, enough => by
      obtain ⟨steps, rfl⟩ : ∃ t, steps = t + 1 := ⟨steps - 1, by omega⟩
      exact ⟨steps, by rw [← here]; rfl⟩
  | gap + 1, steps, j, here, enough => by
      obtain ⟨steps, rfl⟩ : ∃ t, steps = t + 1 := ⟨steps - 1, by omega⟩
      obtain ⟨steps', rest⟩ := tiebreak_skip bound agree gap steps (j + 1) (by omega)
        (by omega)
      refine ⟨steps', ?_⟩
      rw [tiebreak, Exec.bind_of_ok (chunkAt_ok k (i := j) (by omega) s),
        Exec.bind_of_ok (chunkAt_ok existingKey (i := j) (by omega) s),
        if_neg (not_not.mpr (agree j (by omega)))]
      exact rest

/-- What is left when a leaf with another key has been replaced, whatever fits `_prefix_length`. -/
theorem splitLeaf_run {limit : ℕ} {front : Vector Byte maxPrefixLength}
    (ctx : Ctx tr s.mem s.tree.dummyNode e s.tree.root k M (dom M) p c d own)
    (cell : s.mem.get c = some ⟨some p, .leaf v⟩) (off : c ∉ own)
    (agree : Word.Agree r k (tr.keyOf v)) (letter : k.letter r ≠ (tr.keyOf v).letter r)
    (ge : d ≤ r) (bound : r < n) (enough : n ≤ limit) (calm : s.mem.failAt = none)
    (copied : copyRange k.chunks d (d + min (uint16 ((r : ℤ) - d)) maxPrefixLength)
      (plainHeader d).stored 0 = .ok front) :
    ∃ s', splitLeaf limit c (tr.keyOf v) k d s = .ok (s.mem.next, r) s' ∧
      Ctx tr s'.mem s'.tree.dummyNode e s'.tree.root k M (insert k (dom M)) p s.mem.next d own ∧
      s'.mem.get s.mem.next = some ⟨some p,
        .inner ⟨d, uint16 ((r : ℤ) - d), front⟩ (.oneWay ((tr.keyOf v).letter r) c)⟩ ∧
      s'.mem.get c = some ⟨some s.mem.next, .leaf v⟩ ∧ s.Frame s' (own ∪ {c}) ∧
      s'.mem.next = s.mem.next + 1 := by
  obtain ⟨s₂, run, ctx₂, cellG₂, leaf₂, frame₂, next₂⟩ := raise_spec ctx cell off calm (agree.mono ge)
    ((tr.keyOf v).letter r) (plainHeader d)
  have fresh : s.mem.next ∉ own := fun inside => absurd (ctx.lt_next inside) (lt_irrefl _)
  have notG : c ≠ s.mem.next := (Memory.lt_next_of_get cell).ne
  let h : PrefixHeader := ⟨d, uint16 ((r : ℤ) - d), front⟩
  let mem₃ := s₂.mem.set s.mem.next ⟨some p, .inner h (.oneWay ((tr.keyOf v).letter r) c)⟩
  have header : s₂.Frame (s₂.withMem mem₃) {s.mem.next} :=
    ⟨Memory.keeps_set _ _ rfl, rfl, rfl, rfl⟩
  refine ⟨s₂.withMem mem₃, ?_, ctx₂.frame fun x inside => ?_, Memory.set_get_self cellG₂ _,
    (Memory.set_get_of_ne _ _ notG).trans leaf₂, frame₂.trans header fun x inside => ?_, next₂⟩
  · obtain ⟨steps, skipped⟩ := tiebreak_skip (s := s) (c := c) (d := d) bound agree (r - d)
      (limit - d) d (by omega) (by omega)
    unfold splitLeaf
    rw [skipped, tiebreak, Exec.bind_of_ok (chunkAt_ok k bound s),
      Exec.bind_of_ok (chunkAt_ok (tr.keyOf v) bound s), if_pos letter]
    simp only [copied]
    exact (run _).trans (Exec.bind_of_ok (setHeader_ok cellG₂ h) _)
  · exact Memory.set_get_of_ne _ _ fun same => fresh (same ▸ inside)
  · exact .inr (le_of_eq (Set.mem_singleton_iff.mp inside).symm)

/-- **A leaf with another key is replaced** by one node with the bytes both keys share. -/
theorem splitLeaf_spec {limit : ℕ} (admits : n ≤ 65536)
    (ctx : Ctx tr s.mem s.tree.dummyNode e s.tree.root k M (dom M) p c d own)
    (cell : s.mem.get c = some ⟨some p, .leaf v⟩) (off : c ∉ own)
    (alone : under M k d = single (tr.keyOf v) (c, v)) (differ : k ≠ tr.keyOf v)
    (enough : n ≤ limit) (calm : s.mem.failAt = none) :
    ∃ q r s' own', splitLeaf limit c (tr.keyOf v) k d s = .ok (q, r) s' ∧
      Opened tr s' e k M q r own' ∧ s.Frame s' (own ∪ {c}) ∧ Memory.Renews s.mem s'.mem (own ∪ {c}) own' := by
  have below : tr.keyOf v ∈ dom (under M k d) := by
    rw [alone, dom_single]
    rfl
  obtain ⟨agreeD, member⟩ := mem_dom_under.mp below
  obtain ⟨r, ge, bound, agree, letter⟩ := Word.exists_first_difference_from agreeD differ
  obtain ⟨front, copied, branches, describes⟩ := sharedHeader_spec (k := k) admits ge bound
  obtain ⟨s', run, ctx', cell', leaf', frame, next⟩ :=
    splitLeaf_run ctx cell off agree letter ge bound enough calm copied
  have fresh : s.mem.next ∉ own := fun inside => absurd (ctx.lt_next inside) (lt_irrefl _)
  have notG : c ≠ s.mem.next := (Memory.lt_next_of_get cell).ne
  let h : PrefixHeader := ⟨d, uint16 ((r : ℤ) - d), front⟩
  have branchH : branch h = r := branches
  have opened : Opened tr s' e k M s.mem.next (branch h) (own ∪ insert s.mem.next {c}) := by
    refine .above (b := (tr.keyOf v).letter r) ctx' cell' (branchH ▸ bound) describes ?_ ?_ ?_ ?_ ?_ ?_
    · rw [branchH]
      exact letter.symm
    · rw [branchH, alone, dom_single]
      rintro u rfl
      exact ⟨agree, rfl⟩
    · rw [branchH, alone]
      exact .leaf leaf' bound
    · rw [branchH]
      exact ⟨k, ⟨Word.Agree.refl _ k, Or.inl rfl⟩, tr.keyOf v, ⟨agreeD, Or.inr member⟩, letter⟩
    · rw [Set.disjoint_insert_right, Set.disjoint_singleton_right]
      exact ⟨fresh, off⟩
    · exact fun same => notG same.symm
  refine ⟨s.mem.next, r, s', own ∪ insert s.mem.next {c}, run, branchH ▸ opened, frame, ?_⟩
  have both := Memory.Renews.of_next_succ (own ∪ {c}) next
  rwa [Set.union_assoc, Set.singleton_union, Set.pair_comm] at both

end Leaf

/-! ### Merging a node into its child -/

/-- The stored bytes of a node merged with its child: its own, the byte between, the child's. -/
theorem joinStored_spec (h child : PrefixHeader) (b : Byte) :
    ∃ stored, (if h.prefixLength < maxPrefixLength then do
          let shifted ← memmove child.stored 0 (maxPrefixLength - h.prefixLength - 1)
            (h.prefixLength + 1)
          let front ← copyRange h.stored 0 h.prefixLength shifted 0
          .ok (front.setIfInBounds h.prefixLength b)
        else .ok h.stored : Except Fault (Vector Byte maxPrefixLength)) = .ok stored ∧
      ∀ (v : Key n), h.Spells h.depth v → v.letter (branch h) = b → child.Spells (branch h + 1) v →
        ∀ i < min (child.prefixLength + (h.prefixLength + 1)) maxPrefixLength,
          stored[i]? = some (v.letter (h.depth + i)) := by
  by_cases short : h.prefixLength < maxPrefixLength
  · obtain ⟨shifted, moved, readShifted⟩ := memmove_ok child.stored 0
      (maxPrefixLength - h.prefixLength - 1) (h.prefixLength + 1) (by omega) (by omega)
    obtain ⟨front, copied, readFront⟩ := copyRange_ok h.stored shifted 0
      h.prefixLength 0 (by omega) (by omega)
    refine ⟨front.setIfInBounds h.prefixLength b, ?_, fun v spells letter below i lt => ?_⟩
    · rw [if_pos short, moved]
      show (copyRange h.stored 0 h.prefixLength shifted 0 >>= fun front =>
        .ok (front.setIfInBounds h.prefixLength b)) = _
      rw [copied]
      rfl
    · rw [Vector.getElem?_setIfInBounds]
      rcases lt_trichotomy i h.prefixLength with less | rfl | greater
      · rw [if_neg less.ne', readFront i (by omega), if_pos ⟨Nat.zero_le i, by omega⟩,
          spells _ (by simp; omega)]
        simp
      · rw [if_pos rfl, if_pos short, ← letter]
        rfl
      · rw [if_neg greater.ne, readFront i (by omega), if_neg (by omega), readShifted i (by omega),
          if_pos (by omega), below _ (by simp; omega)]
        congr 2
        show h.depth + h.prefixLength + 1 + _ = _
        omega
  · refine ⟨h.stored, if_neg short, fun v spells _ _ i lt => spells i ?_⟩
    exact lt_min ((lt.trans_le (min_le_right _ _)).trans_le (not_lt.mp short))
      (lt.trans_le (min_le_right _ _))

section Compress

variable {s : ArPrefixTree.State K V n} {a c : Addr} {p p' : Option Addr} {h child : PrefixHeader}
  {l l' : Layout} {b : Byte}

/-- **`compress_node_into_child`**: the only child takes the place of the node and its bytes. -/
theorem compressNodeIntoChild_spec (wf : l.WF)
    (cell : s.mem.get a = some ⟨p, .inner h l⟩) (first : l.getType = .node4)
    (slot : l.child b = some c) (one : l.count = 1)
    (inner : s.mem.get c = some ⟨p', .inner child l'⟩) (apart : c ≠ a)
    (below : child.depth = branch h + 1)
    (typed : child.prefixLength + (h.prefixLength + 1) < 65536) :
    ∃ mem' joined, compressNodeIntoChild a s = .ok c (s.withMem mem') ∧
      mem'.get c = some ⟨p, .inner joined l'⟩ ∧ branch joined = branch child ∧
      (∀ v : Key n, Describes h h.depth v → v.letter (branch h) = b →
        Describes child (branch h + 1) v → Describes joined h.depth v) ∧
      Memory.Keeps s.mem mem' {a, c} ∧ mem'.get a = none ∧ mem'.next = s.mem.next := by
  obtain ⟨stored, computed, spells⟩ := joinStored_spec (n := n) h child b
  have split : branch h = h.depth + h.prefixLength := rfl
  have length : uint16 ((child.prefixLength : ℤ) + (h.prefixLength + 1))
      = child.prefixLength + (h.prefixLength + 1) := by
    have cast : ((child.prefixLength : ℤ) + (h.prefixLength + 1))
        = ((child.prefixLength + (h.prefixLength + 1) : ℕ) : ℤ) := by push_cast; rfl
    rw [cast]
    exact uint16_natCast typed
  let joined : PrefixHeader :=
    ⟨h.depth, uint16 ((child.prefixLength : ℤ) + (h.prefixLength + 1)), stored⟩
  let mem₁ := s.mem.set c ⟨p', .inner joined l'⟩
  let mem₂ := mem₁.set c ⟨p, .inner joined l'⟩
  have inner₁ : mem₁.get c = some ⟨p', .inner joined l'⟩ := Memory.set_get_self inner _
  have cell₂ : mem₂.get a = some ⟨p, .inner h l⟩ := (Memory.set_get_of_ne _ _ apart.symm).trans
    ((Memory.set_get_of_ne _ _ apart.symm).trans cell)
  refine ⟨mem₂.free a, joined, ?_, (Memory.free_get_of_ne _ apart).trans (Memory.set_get_self inner₁ _),
    ?_, fun v describes letter describesChild => ⟨rfl, fun i lt => ?_⟩, ?_, Memory.free_get_self _ _,
    rfl⟩
  · cases l with
    | node4 nd =>
        obtain ⟨childAt, key⟩ := childAt_of_count_one wf slot one
        unfold compressNodeIntoChild
        rw [Exec.bind_of_ok (load_ok cell)]
        simp only [childAt, key]
        rw [Exec.bind_of_ok (Exec.lift_ok _ _), Exec.bind_of_ok (getType_inner inner),
          if_neg (layout_getType_ne l').1, Exec.bind_of_ok (headerOf_ok inner), computed,
          Exec.bind_of_ok (Exec.lift_ok _ _), Exec.bind_of_ok (setHeader_ok inner joined)]
        refine (Exec.bind_of_ok (setParent_ok (s := s.withMem mem₁) inner₁ p) _).trans ?_
        exact Exec.bind_of_ok (delete_ok (s := s.withMem mem₂) cell₂) _
    | node16 nd => cases first
    | node48 nd => cases first
    | node256 nd => cases first
  · have lengthJoined : joined.prefixLength = child.prefixLength + (h.prefixLength + 1) := length
    have unfolded : branch joined = h.depth + joined.prefixLength := rfl
    have unfolded' : branch child = child.depth + child.prefixLength := rfl
    omega
  · have lt' : i < min (child.prefixLength + (h.prefixLength + 1)) maxPrefixLength := by
      rwa [← length]
    exact spells v describes.2 letter describesChild.2 i lt'
  · refine ((Memory.keeps_set _ _ (Or.inr rfl)).trans (Memory.keeps_set _ _ (Or.inr rfl))
      fun y inside => .inl inside).trans (Memory.keeps_free _ (Or.inl rfl)) fun y inside => .inl inside

end Compress

/-! ### Repair after an erasure -/

section Fix

variable {s : ArPrefixTree.State K V n} {p q e : Addr} {h : PrefixHeader} {l : Layout} {d : ℕ}
  {own : Set Addr} {sub : Byte → Set Addr}

/-- The nodes above keep two different keys, as another key below the hole stands in for the erased
one. -/
theorem broad_of_other {u : Key n} {d : ℕ} (member : u ∈ dom (drop M k)) (agree : Word.Agree d k u) :
    ∀ r d', d' ≤ r → r < d → Broad PrefixHeader r {v | Word.Agree d' k v ∧ v ∈ dom M} →
      Broad PrefixHeader r {v | Word.Agree d' k v ∧ v ∈ dom (drop M k)} := by
  intro r d' le lt ⟨v, inV, w, inW, differ⟩
  have replaced : ∀ x ∈ {v | Word.Agree d' k v ∧ v ∈ dom M},
      ∃ y ∈ {v | Word.Agree d' k v ∧ v ∈ dom (drop M k)}, y.letter r = x.letter r := by
    intro x ⟨agreeX, inM⟩
    by_cases same : x = k
    · exact ⟨u, ⟨agree.mono (le.trans lt.le), member⟩, by rw [same]; exact (agree r lt).symm⟩
    · refine ⟨x, ⟨agreeX, ?_⟩, rfl⟩
      rw [dom_drop]
      exact ⟨inM, same⟩
  obtain ⟨v', inV', sameV⟩ := replaced v inV
  obtain ⟨w', inW', sameW⟩ := replaced w inW
  exact ⟨v', inV', w', inW', by rwa [sameV, sameW]⟩

/-- `fix_after_erase` at a node with enough children. -/
theorem fixAfterErase_kept {p : Option Addr} (cell : s.mem.get q = some ⟨p, .inner h l⟩)
    (enough : l.minSize ≤ l.count) : fixAfterErase q k s = .ok ⟨⟩ s := by
  have two := l.two_le_minSize.trans enough
  unfold fixAfterErase
  rw [Exec.bind_of_ok (sizeOf_inner cell), Exec.bind_of_ok (minSizeOf_inner cell),
    if_neg (not_lt.mpr enough), Exec.bind_of_ok (Exec.pure_apply q s),
    Exec.bind_of_ok (getType_inner cell), Exec.bind_of_ok (sizeOf_inner cell),
    if_neg fun both => by omega]
  rfl

/-- `fix_after_erase` at a node with too few children. -/
theorem fixAfterErase_small {p : Option Addr} {shrunk p' : Addr} {changed : Bool} {body : Body PrefixHeader V}
    {s₁ s₂ : ArPrefixTree.State K V n} (cell : s.mem.get q = some ⟨p, .inner h l⟩)
    (small : l.count < l.minSize) (run : shrink q s = .ok (shrunk, changed) s₁)
    (cell₁ : s₁.mem.get shrunk = some ⟨some p', body⟩)
    (redirected : updateChildPtr p' shrunk k s₁ = .ok ⟨⟩ s₂) :
    fixAfterErase q k s = (do
      let type ← getType shrunk
      let size ← sizeOf shrunk
      if type = .node4 ∧ size = 1 then do
        let child ← compressNodeIntoChild shrunk
        let parent ← deref (← parentOf child)
        updateChildPtr parent child k
      else pure () : Run PrefixHeader K V n Unit) s₂ := by
  have first : (do
      let result ← shrink q
      let parent ← deref (← parentOf result.1)
      updateChildPtr parent result.1 k
      pure result.1 : Run PrefixHeader K V n Addr) s = .ok shrunk s₂ := by
    rw [Exec.bind_of_ok run, Exec.bind_of_ok (parentOf_ok cell₁)]
    exact Exec.bind_of_ok redirected _
  unfold fixAfterErase
  rw [Exec.bind_of_ok (sizeOf_inner cell), Exec.bind_of_ok (minSizeOf_inner cell), if_pos small]
  exact Exec.bind_of_ok first _

variable (vacated : Vacated tr s e k M p q d h l sub own)

include vacated

/-- Two children left are two keys that differ at the byte of the node. -/
theorem broad_of_two (two : 2 ≤ l.count) :
    Broad PrefixHeader (branch h) {u | Word.Agree d k u ∧ u ∈ dom (drop M k)} := by
  obtain ⟨b, c, other, child⟩ := vacated.exists_left
  obtain ⟨b', c', differ, child'⟩ := Layout.exists_other vacated.node.wf two b
  have other' : b' ≠ k.letter (branch h) := by
    rintro rfl
    rw [vacated.missing] at child'
    cases child'
  obtain ⟨u, member, agree, letter⟩ := vacated.node.exists_key other child
  obtain ⟨u', member', agree', letter'⟩ := vacated.node.exists_key other' child'
  have le := vacated.node.depth_le
  exact ⟨u, ⟨agree.mono le, member⟩, u', ⟨agree'.mono le, member'⟩, by rw [letter, letter']; exact differ.symm⟩

theorem exists_other_key : ∃ u ∈ dom (drop M k), Word.Agree d k u := by
  obtain ⟨b, c, other, child⟩ := vacated.exists_left
  obtain ⟨u, member, agree, -⟩ := vacated.node.exists_key other child
  exact ⟨u, member, agree.mono vacated.node.depth_le⟩

/-- Enough children are left. -/
theorem fix_kept (enough : l.minSize ≤ l.count) :
    fixAfterErase q k s = .ok ⟨⟩ s ∧
      Whole tr s.mem s.tree.dummyNode e s.tree.root (drop M k) (own ∪ around q sub) := by
  have fits : l.Fits l.count :=
    ⟨vacated.count_pos, (Nat.le_succ _).trans vacated.fits.2.1, fun _ => enough⟩
  obtain ⟨u, member, agree⟩ := exists_other_key vacated
  exact ⟨fixAfterErase_kept vacated.node.cell enough, Vacated.close vacated.outer vacated.node
    vacated.missing fits vacated.alone (broad_of_two vacated (l.two_le_minSize.trans enough))
    (broad_of_other member agree) vacated.clear⟩

/-- A larger node gives way to one of the next smaller type. -/
theorem fix_shrunk (small : l.count < l.minSize) (notFirst : l.getType ≠ .node4) :
    ∃ s', fixAfterErase q k s = .ok ⟨⟩ s' ∧
      Whole tr s'.mem s'.tree.dummyNode e s'.tree.root (drop M k) (own ∪ around s.mem.next sub) ∧
      s.Frame s' (own ∪ around q sub) ∧
      Memory.Renews s.mem s'.mem (own ∪ around q sub) (own ∪ around s.mem.next sub) := by
  have two := vacated.fits.two_le notFirst
  obtain ⟨u, member, agree⟩ := exists_other_key vacated
  obtain ⟨l', mem', s', run, cell', redirected, outer', node', fits', count', children, clear', frame,
      renews⟩ := vacated.shrinkInto_spec small notFirst
  refine ⟨s', ?_, Vacated.close outer' node' ((children _).trans vacated.missing) fits' vacated.alone
    (broad_of_two vacated two) (broad_of_other member agree) clear', frame, renews⟩
  rw [fixAfterErase_small vacated.node.cell small run cell' redirected,
    Exec.bind_of_ok (getType_inner node'.cell), Exec.bind_of_ok (sizeOf_inner node'.cell),
    if_neg fun both => by omega]
  rfl

/-- A node with one leaf left gives way to the leaf. -/
theorem fix_leaf {b : Byte} {c : Addr} {v : V} (first : l.getType = .node4) (one : l.count = 1)
    (child : l.child b = some c) (inside : c ∈ sub b)
    (leaf : s.mem.get c = some ⟨some q, .leaf v⟩)
    (table : fiber (under M k d) (branch h) b = single (tr.keyOf v) (c, v)) :
    ∃ s', fixAfterErase q k s = .ok ⟨⟩ s' ∧
      Whole tr s'.mem s'.tree.dummyNode e s'.tree.root (drop M k) (own ∪ {c}) ∧
      s.Frame s' (own ∪ around q sub) ∧
      Memory.Renews s.mem s'.mem (own ∪ around q sub) (own ∪ {c}) := by
  have small : l.count < l.minSize := (Layout.count_lt_minSize_iff first).mpr (by omega)
  obtain ⟨u, member, agree⟩ := exists_other_key vacated
  obtain ⟨mem', run, outer', leaf', off, frame, gone, next⟩ :=
    vacated.shrinkToLeaf_spec first one child inside leaf
  obtain ⟨s', redirected, outer'', frame', next'⟩ :=
    updateChildPtr_spec (s := s.withMem mem') outer' (Word.Agree.refl d k) c
  have leaf'' : s'.mem.get c = some ⟨some p, .leaf v⟩ := (frame'.keeps.get c
    (fun inside => off (outer'.links_subset inside)) (Memory.lt_next_of_get leaf')).trans leaf'
  have rep : Rep tr s'.mem p c d (under (drop M k) k d) {c} := by
    rw [vacated.under_drop_eq child one, table]
    exact .leaf leaf'' outer'.depth_le
  have freed : Memory.Renews s.mem mem' (own ∪ around q sub) (own ∪ {c}) :=
    vacated.freed_leaf one child inside leaf gone next
  refine ⟨s', ?_, outer''.closeDropped (broad_of_other member agree) rep
    (Set.disjoint_singleton_right.mpr off),
    frame.trans (frame'.mono outer'.links_subset) fun y inside => .inl (Or.inl inside),
    freed.trans (Memory.Renews.of_next _ next')
      (frame'.keeps.mono (outer'.links_subset.trans Set.subset_union_left)) frame.keeps.next_le⟩
  rw [fixAfterErase_small vacated.node.cell small run leaf' redirected,
    Exec.bind_of_ok (getType_leaf leaf''), Exec.bind_of_ok (sizeOf_leaf leaf''),
    if_neg fun both => NodeType.noConfusion both.1]
  rfl

/-- A node with one inner child left is merged into it. -/
theorem fix_merged {b : Byte} {c : Addr} {child : PrefixHeader} {l' : Layout} (admits : n ≤ 65536)
    (first : l.getType = .node4) (one : l.count = 1) (slot : l.child b = some c)
    (other : b ≠ k.letter (branch h)) (inner : s.mem.get c = some ⟨some q, .inner child l'⟩) :
    ∃ s' joined, fixAfterErase q k s = .ok ⟨⟩ s' ∧
      Whole tr s'.mem s'.tree.dummyNode e s'.tree.root (drop M k) (own ∪ sub b) ∧
      s.Frame s' (own ∪ around q sub) ∧
      Memory.Renews s.mem s'.mem (own ∪ around q sub) (own ∪ sub b) ∧
      s'.mem.get c = some ⟨some p, .inner joined l'⟩ ∧ branch joined = branch child ∧
      ∀ v : Key n, Describes h d v → v.letter (branch h) = b → Describes child (branch h + 1) v →
        Describes joined d v := by
  have small : l.count < l.minSize := (Layout.count_lt_minSize_iff first).mpr (by omega)
  obtain ⟨u, member, agree⟩ := exists_other_key vacated
  have rep := vacated.node.kid b other c slot
  have near : ∀ y ∈ sub b, y ∈ around q sub := fun y inside => mem_around_of_sub inside
  have clearSub : Disjoint own (sub b) := vacated.clear.mono_right near
  have apart : c ≠ q := fun same => vacated.node.apart b (same ▸ rep.top_mem)
  -- the slot above is written with the node itself
  have run := shrink_inner vacated.node.wf vacated.node.cell first slot one inner
  obtain ⟨s₁, redirected, outer₁, frame₁, next₁⟩ :=
    updateChildPtr_spec vacated.outer (Word.Agree.refl d k) q
  have same₁ : Memory.Same s.mem s₁.mem (around q sub) := frame₁.keeps.same
    (vacated.clear.mono_left vacated.outer.links_subset) fun y inside => by
      obtain ⟨cell, here⟩ := vacated.node.live y inside
      exact Memory.lt_next_of_get here
  have node₁ := vacated.node.frame same₁
  have rep₁ := node₁.kid b other c slot
  have inner₁ := (same₁ c (near c rep.top_mem)).trans inner
  obtain ⟨describes, bound⟩ : (∀ v ∈ dom (fiber (under M k d) (branch h) b),
      Describes child (branch h + 1) v) ∧ branch child < n := by
    rcases rep.inspect with ⟨v, cell', -, -⟩ | ⟨h', l'', cell', wf, bound, -, -, describes⟩
    · rw [inner] at cell'
      cases cell'
    · rw [inner] at cell'
      cases cell'
      exact ⟨describes, bound⟩
  obtain ⟨v₀, member₀⟩ := rep.nonempty
  have depthOf : h.depth = d := vacated.node.describes.1
  have typed : child.prefixLength + (h.prefixLength + 1) < 65536 := by
    have below : child.depth = h.depth + h.prefixLength + 1 := (describes v₀ member₀).1
    have inside : child.depth + child.prefixLength < n := bound
    omega
  -- the merge
  obtain ⟨mem₂, joined, merge, cell₂, branches, joins, keeps₂, gone, next₂⟩ :=
    compressNodeIntoChild_spec
    node₁.wf node₁.cell first slot one inner₁ apart (describes v₀ member₀).1 typed
  have within : {q, c} ⊆ around q sub := by
    rintro y (rfl | rfl)
    · exact Set.mem_insert y _
    · exact near y rep.top_mem
  have outer₂ : Ctx tr mem₂ s₁.tree.dummyNode e s₁.tree.root k M (dom M) p q d own :=
    outer₁.frame (keeps₂.same (vacated.clear.symm.mono_left within) fun y inside =>
      outer₁.lt_next inside)
  obtain ⟨s₃, redirected₃, outer₃, frame₃, next₃⟩ :=
    updateChildPtr_spec (s := s₁.withMem mem₂) outer₂ (Word.Agree.refl d k) c
  have kept₃ : ∀ y ∈ sub b, s₃.mem.get y = mem₂.get y := fun y inside =>
    frame₃.keeps.get y (fun link => Set.disjoint_left.mp clearSub (outer₂.links_subset link) inside)
      (lt_of_lt_of_le (rep₁.lt_next inside) keeps₂.next_le)
  have rep₃ : Rep tr s₃.mem p c d (under (drop M k) k d) (sub b) := by
    rw [vacated.under_drop_eq slot one]
    refine rep₁.rehead inner₁ ((kept₃ c rep.top_mem).trans cell₂) branches (fun v inside => ?_)
      fun y inside => ?_
    · obtain ⟨letter, below⟩ := mem_dom_fiber.mp inside
      have shares := vacated.node.shared v below
      have here : Describes h h.depth v :=
        HeaderSpec.describes_congr shares (depthOf ▸ vacated.node.describes)
      exact depthOf ▸ joins v here letter (describes v inside)
    · have outside : y ∉ ({q, c} : Set Addr) := by
        rintro (same | same)
        · exact vacated.node.apart b (same ▸ inside.1)
        · exact inside.2 same
      exact (kept₃ y inside.1).trans (keeps₂.get y outside (rep₁.lt_next inside.1))
  refine ⟨s₃, joined, ?_, outer₃.closeDropped (broad_of_other member agree) rep₃ clearSub, ?_, ?_,
    (kept₃ c rep.top_mem).trans cell₂, branches, fun v here letter below => ?_⟩
  · rw [fixAfterErase_small vacated.node.cell small run vacated.node.cell redirected,
      Exec.bind_of_ok (getType_inner node₁.cell), Exec.bind_of_ok (sizeOf_inner node₁.cell),
      if_pos ⟨first, one⟩, Exec.bind_of_ok merge]
    exact (Exec.bind_of_ok (parentOf_ok (s := s₁.withMem mem₂) cell₂) _).trans redirected₃
  · have one : s.Frame s₁ (own ∪ around q sub) :=
      frame₁.mono (vacated.outer.links_subset.trans Set.subset_union_left)
    have two : s₁.Frame (s₁.withMem mem₂) (own ∪ around q sub) :=
      ⟨keeps₂.mono (within.trans Set.subset_union_right), rfl, rfl, rfl⟩
    exact (one.trans two fun y inside => .inl inside).trans (frame₃.mono outer₂.links_subset)
      fun y inside => .inl (Or.inl inside)
  · have freed : Memory.Renews s.mem mem₂ (own ∪ around q sub) (own ∪ sub b) := by
      refine (Memory.Renews.of_next _ (next₂.trans next₁)).drop (Set.union_subset_union_right _ near)
        fun y inside outside => ?_
      rw [vacated.node.around_eq slot one.le] at inside
      rcases inside with before | rfl | beside
      · exact absurd (Or.inl before) outside
      · exact gone
      · exact absurd (Or.inr beside) outside
    exact freed.trans (Memory.Renews.of_next _ next₃)
      (frame₃.keeps.mono (outer₂.links_subset.trans Set.subset_union_left))
      (frame₁.keeps.next_le.trans keeps₂.next_le)
  · exact depthOf ▸ joins v (depthOf ▸ here) letter below

/-- **`fix_after_erase`**: the tree without the key is represented again. -/
theorem fixAfterErase_spec (admits : n ≤ 65536) :
    ∃ s' own', fixAfterErase q k s = .ok ⟨⟩ s' ∧
      Whole tr s'.mem s'.tree.dummyNode e s'.tree.root (drop M k) own' ∧
      s.Frame s' (own ∪ around q sub) ∧ Memory.Renews s.mem s'.mem (own ∪ around q sub) own' := by
  by_cases small : l.count < l.minSize
  · by_cases first : l.getType = .node4
    · have positive := vacated.count_pos
      have one : l.count = 1 := by
        have few := (Layout.count_lt_minSize_iff first).mp small
        omega
      obtain ⟨b, c, other, child⟩ := vacated.exists_left
      have rep := vacated.node.kid b other c child
      rcases rep.inspect with ⟨v, leaf, table, -⟩ | ⟨h', l', inner, -⟩
      · obtain ⟨s', run, whole, frame, renews⟩ :=
          fix_leaf vacated first one child rep.top_mem leaf table
        exact ⟨s', _, run, whole, frame, renews⟩
      · obtain ⟨s', joined, run, whole, frame, renews, -⟩ :=
          fix_merged vacated admits first one child other inner
        exact ⟨s', _, run, whole, frame, renews⟩
    · obtain ⟨s', run, whole, frame, renews⟩ := fix_shrunk vacated small first
      exact ⟨s', _, run, whole, frame, renews⟩
  · obtain ⟨run, whole⟩ := fix_kept vacated (not_lt.mp small)
    exact ⟨s, _, run, whole, St.Frame.refl s _, Memory.Renews.refl _ _⟩

end Fix

end ArPrefixTree

/-- **`ar_prefix_tree` meets the laws.** -/
instance : LawfulVariant PrefixHeader where
  passStored_spec {_ _ _ s a _ h _ d S} k cell bound describes nonempty := by
    obtain ⟨w, member⟩ := nonempty
    obtain ⟨rfl, spells⟩ := describes w member
    have unfolded : ∀ {pos : ℕ}, ArPrefixTree.pesPrefixMismatchPos a k s = .ok pos s →
        ArPrefixTree.passStored a k h.depth s
          = (if pos < h.prefixLength then pure none else pure (some (h.depth + pos))
            : Run PrefixHeader _ _ _ (Option ℕ)) s := by
      intro pos run
      unfold ArPrefixTree.passStored
      rw [Exec.bind_of_ok run, Exec.bind_of_ok (headerOf_ok cell)]
    rcases ArPrefixTree.pesPrefixMismatchPos_spec (k := k) cell bound spells with
      run | ⟨j, lt, run, differ⟩
    · exact .inl ((unfolded run).trans (by rw [if_neg (lt_irrefl _)]; rfl))
    · refine .inr ⟨(unfolded run).trans (by rw [if_pos (lt.trans_le (min_le_left _ _))]; rfl), ?_⟩
      intro inside
      have own := (describes k inside).2 j lt
      rw [spells j lt, Option.some.injEq] at own
      exact differ own.symm
  pass_spec {_ _ _ tr s _ a h _ d m _ k} rep cell agree := by
    obtain ⟨rfl, pos, run, found⟩ := ArPrefixTree.prefixMismatchPos_spec rep cell agree
    have unfolded : ArPrefixTree.pass tr a k h.depth s
        = (if pos < h.prefixLength then pure none else pure (some (h.depth + pos))
          : Run PrefixHeader _ _ _ (Option ℕ)) s := by
      unfold ArPrefixTree.pass
      rw [Exec.bind_of_ok run, Exec.bind_of_ok (headerOf_ok cell)]
    rcases found with ⟨rfl, shared⟩ | ⟨inside, departs⟩
    · exact .inl ⟨unfolded.trans (by rw [if_neg (lt_irrefl _)]; rfl), shared⟩
    · refine .inr ⟨unfolded.trans (by rw [if_pos inside]; rfl), fun v member whole => ?_⟩
      exact (departs v member).2 (whole _ (Nat.add_lt_add_left inside _))
  enter_spec admits ctx rep clear cell calm := ArPrefixTree.enter_spec admits ctx rep clear cell calm
  splitLeaf_spec admits ctx cell off alone differ enough calm :=
    ArPrefixTree.splitLeaf_spec admits ctx cell off alone differ enough calm
  le_posLimit _ := le_rfl
  fixAfterErase_spec admits vacated := ArPrefixTree.fixAfterErase_spec vacated admits

end CppArt
