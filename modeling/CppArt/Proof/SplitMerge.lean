/-
**Compression undoes the split.**

`split_prefix_into_parent` cuts the prefix of a node before the byte at `mismatch_pos`, and
`compress_node_into_child` joins two prefixes and the byte between them. Both take one of two ways,
depending on how many of the bytes are stored in the node. What is stored beyond the end of a prefix
plays no part: the headers are described by the bytes of one key, that of the minimum below the node
(`Cut`, `PrefixHeader.Spells`).

* `prefixInvariant_of_history`: the inner nodes of a container satisfy the prefix invariant;
* `compress_undoes_split`: the two functions, one after the other.
-/

import CppArt.Proof.Shape
import CppArt.Proof.Refinement

namespace CppArt

open Table

namespace ArPrefixTree

variable {K V : Type} {n : ℕ} {tr : Traits K V n} {s : ArPrefixTree.State K V n} {a p : Addr}
  {h : PrefixHeader} {l : Layout} {w : Key n} {pos : ℕ}

/-- **The prefix invariant of an inner node**: the key of its minimum goes on after the bytes of the
prefix, and `_prefix` holds the first eight of these bytes. `_prefix_length` is a `uint16_t`. -/
structure PrefixInvariant (tr : Traits K V n) (s : ArPrefixTree.State K V n) (a p : Addr)
    (h : PrefixHeader) (l : Layout) (w : Key n) : Prop where
  cell : s.mem.get a = some ⟨some p, .inner h l⟩
  minimum : minKey tr a s = .ok w s
  bound : h.depth + h.prefixLength < n
  typed : h.prefixLength < 65536
  stored : ∀ i < min h.prefixLength maxPrefixLength, h.stored[i]? = some (w.letter (h.depth + i))

/-- **Every inner node** of a container with keys of at most 65536 bytes satisfies it. -/
theorem prefixInvariant_of_history {m : Table Byte n V} (fits : n ≤ 65536) (history : History tr s m)
    (inner : IsInner s a h l) : ∃ p w, PrefixInvariant tr s a p h l w := by
  obtain ⟨e, M, own, holds, -⟩ := history.holds fits
  obtain ⟨reached, q, cell⟩ := inner
  obtain ⟨p, d, m', own', rep, -⟩ := holds.at_reached reached
  obtain ⟨sub, parts, -, rfl⟩ := rep.parts cell
  obtain ⟨w, member, least⟩ := minKey_spec rep
  obtain ⟨rfl, spells⟩ := parts.describes w member
  have bound : h.depth + h.prefixLength < n := parts.bound
  exact ⟨p, w, cell, least, bound, by omega, spells⟩

/-- **The headers between the split and the merge**: the new node has the bytes before `pos`, the old
one those after it. -/
structure SplitInto (h : PrefixHeader) (pos : ℕ) (w : Key n) (above below : PrefixHeader) : Prop where
  depthAbove : above.depth = h.depth
  lengthAbove : above.prefixLength = pos
  storedAbove : ∀ i < min pos maxPrefixLength, above.stored[i]? = h.stored[i]?
  depthBelow : below.depth = h.depth + pos + 1
  lengthBelow : below.prefixLength = h.prefixLength - pos - 1
  storedBelow : ∀ i < min (h.prefixLength - pos - 1) maxPrefixLength,
    below.stored[i]? = some (w.letter (h.depth + pos + 1 + i))

/-- A cut says how the prefix is split. -/
theorem Cut.splitInto {above below : PrefixHeader} (cut : Cut h pos w above below)
    (invariant : PrefixInvariant tr s a p h l w) (inside : pos < h.prefixLength) :
    SplitInto h pos w above below := by
  have lengthBelow : below.prefixLength = h.prefixLength - pos - 1 := by
    have branches : below.depth + below.prefixLength = h.depth + h.prefixLength := cut.branchBelow
    rw [cut.depthBelow] at branches
    omega
  refine ⟨cut.depthAbove, cut.lengthAbove, fun i lt => ?_, cut.depthBelow, lengthBelow, fun i lt => ?_⟩
  · have lt' : i < min h.prefixLength maxPrefixLength :=
      lt.trans_le (min_le_min_right maxPrefixLength inside.le)
    rw [invariant.stored i lt']
    exact cut.spellsAbove i (by rwa [cut.lengthAbove])
  · exact cut.spellsBelow i (by rwa [lengthBelow])

/-- **The merge** of the two nodes of a cut prefix. -/
theorem Cut.compress {above below : PrefixHeader} {g : Addr} (cut : Cut h pos w above below)
    (invariant : PrefixInvariant tr s a p h l w) (inside : pos < h.prefixLength)
    (s₁ : ArPrefixTree.State K V n)
    (cellG : s₁.mem.get g = some ⟨some p, .inner above (.oneWay (w.letter (h.depth + pos)) a)⟩)
    (cellA : s₁.mem.get a = some ⟨some g, .inner below l⟩) (apart : a ≠ g) :
    ∃ mem₂ joined, compressNodeIntoChild g s₁ = .ok a (s₁.withMem mem₂) ∧
      mem₂.get a = some ⟨some p, .inner joined l⟩ ∧ joined.depth = h.depth ∧
      joined.prefixLength = h.prefixLength ∧
      (∀ i < min h.prefixLength maxPrefixLength, joined.stored[i]? = h.stored[i]?) ∧
      Memory.Keeps s₁.mem mem₂ {g, a} ∧ mem₂.get g = none := by
  obtain ⟨wf, count, children⟩ := Layout.oneWay_spec (w.letter (h.depth + pos)) a
  have slot : (Layout.oneWay (w.letter (h.depth + pos)) a).child (w.letter (h.depth + pos)) = some a := by
    rw [children, if_pos rfl]
  have split := cut.splitInto invariant inside
  have typed := invariant.typed
  have total : below.prefixLength + (above.prefixLength + 1) < 65536 := by
    rw [split.lengthBelow, split.lengthAbove]
    omega
  have depthBelow : below.depth = branch above + 1 := by rw [cut.branchAbove, cut.depthBelow]
  obtain ⟨mem₂, joined, run, cell, branches, joins, keeps, gone, -⟩ :=
    compressNodeIntoChild_spec wf cellG rfl slot count cellA apart depthBelow total
  -- the bytes of the minimum describe both headers, so they describe the joined one
  have describesAbove : Describes above above.depth w := by
    rw [cut.depthAbove]
    exact cut.describesAbove (Word.Agree.refl _ w)
  have describesBelow : Describes below (branch above + 1) w := by
    rw [cut.branchAbove]
    exact cut.describesBelow (Word.Agree.refl _ w)
  have letter : w.letter (branch above) = w.letter (h.depth + pos) := by rw [cut.branchAbove]
  obtain ⟨depth, spells⟩ := joins w describesAbove letter describesBelow
  have depthJoined : joined.depth = h.depth := depth.trans cut.depthAbove
  have lengthJoined : joined.prefixLength = h.prefixLength := by
    have same : joined.depth + joined.prefixLength = h.depth + h.prefixLength :=
      branches.trans cut.branchBelow
    rw [depthJoined] at same
    omega
  refine ⟨mem₂, joined, run, cell, depthJoined, lengthJoined, fun i lt => ?_, keeps, gone⟩
  rw [invariant.stored i lt, ← cut.depthAbove]
  exact spells i (by rwa [lengthJoined])

/-- **`compress_node_into_child` undoes `split_prefix_into_parent`**, at any position of any prefix. The
other nodes and the data members are as before, and the new node is gone. -/
theorem compress_undoes_split (tr : Traits K V n) (s : ArPrefixTree.State K V n) (a p : Addr)
    (h : PrefixHeader) (l : Layout) (w : Key n) (pos : ℕ) (invariant : PrefixInvariant tr s a p h l w)
    (inside : pos < h.prefixLength) (calm : s.mem.failAt = none) :
    ∃ (s₁ s₂ : ArPrefixTree.State K V n) (above below joined : PrefixHeader),
      splitPrefixIntoParent tr a pos s = .ok s.mem.next s₁ ∧
      s₁.mem.get s.mem.next = some ⟨some p, .inner above (.oneWay (w.letter (h.depth + pos)) a)⟩ ∧
      s₁.mem.get a = some ⟨some s.mem.next, .inner below l⟩ ∧ SplitInto h pos w above below ∧
      compressNodeIntoChild s.mem.next s₁ = .ok a s₂ ∧
      s₂.mem.get a = some ⟨some p, .inner joined l⟩ ∧ joined.depth = h.depth ∧
      joined.prefixLength = h.prefixLength ∧
      (∀ i < min h.prefixLength maxPrefixLength, joined.stored[i]? = h.stored[i]?) ∧
      s₂.mem.get s.mem.next = none ∧ (∀ x, x ≠ a → x < s.mem.next → s₂.mem.get x = s.mem.get x) ∧
      s₂.tree = s.tree := by
  obtain ⟨mem₁, above, below, split, cut, cellG, cellA, next₁, -, kept₁⟩ :=
    splitPrefixIntoParent_run invariant.cell invariant.minimum invariant.stored invariant.bound
      invariant.typed inside calm
  have apart : a ≠ s.mem.next := (Memory.lt_next_of_get invariant.cell).ne
  obtain ⟨mem₂, joined, merge, cell, depth, length, stored, keeps, gone⟩ :=
    cut.compress invariant inside (s.withMem mem₁) cellG cellA apart
  refine ⟨s.withMem mem₁, s.withMem mem₂, above, below, joined, split, cellG, cellA,
    cut.splitInto invariant inside, merge, cell, depth, length, stored, gone, fun x notA lt => ?_, rfl⟩
  have outside : x ∉ ({s.mem.next, a} : Set Addr) := by
    rintro (same | same)
    · exact absurd same lt.ne
    · exact notA same
  have older : x < mem₁.next := by
    rw [next₁]
    exact lt.trans (Nat.lt_succ_self _)
  exact (keeps.get x outside older).trans (kept₁ x notA lt)

/-- The cell from which a header has been read. -/
theorem exists_cell_of_headerOf {t : ArPrefixTree.State K V n} (run : headerOf a s = .ok h t) :
    ∃ q l, s.mem.get a = some ⟨q, .inner h l⟩ := by
  obtain ⟨cell, s', loaded, read⟩ := Exec.bind_eq_ok.mp run
  unfold load at loaded
  rcases here : s.mem.get a with _ | ⟨q, body⟩
  · rw [here] at loaded
    cases loaded
  · rw [here] at loaded
    cases loaded
    cases body with
    | inner h' l =>
        cases read
        exact ⟨q, l, rfl⟩
    | leaf v => cases read
    | dummy root leaf => cases read
    | baseLeaf => cases read

/-- Two keys that agree on nine bytes: the prefix of the node above them is split before the fourth. -/
theorem compress_undoes_split_nine :
    ∃ (s s₁ s₂ : ArPrefixTree.State (Key 11) (Key 11) 11) (a g p : Addr) (joined : PrefixHeader)
      (l : Layout), insertAll (Traits.identity 11)
          [⟨#v[1, 2, 3, 4, 5, 6, 7, 8, 9, 0, 0]⟩, ⟨#v[1, 2, 3, 4, 5, 6, 7, 8, 9, 1, 0]⟩]
          (blankState PrefixHeader (Traits.identity 11)) = .ok ⟨⟩ s ∧
        splitPrefixIntoParent (Traits.identity 11) a 3 s = .ok g s₁ ∧
        compressNodeIntoChild g s₁ = .ok a s₂ ∧
        s₂.mem.get a = some ⟨some p, .inner joined l⟩ ∧ joined.prefixLength = 9 := by
  have fits : 11 ≤ 65536 := by decide
  obtain ⟨s, run, history⟩ := insertAll_history (H := PrefixHeader) fits (Traits.identity 11)
    [⟨#v[1, 2, 3, 4, 5, 6, 7, 8, 9, 0, 0]⟩, ⟨#v[1, 2, 3, 4, 5, 6, 7, 8, 9, 1, 0]⟩]
  have evaluated : Exec.value? ((insertAll (Traits.identity 11)
      [⟨#v[1, 2, 3, 4, 5, 6, 7, 8, 9, 0, 0]⟩, ⟨#v[1, 2, 3, 4, 5, 6, 7, 8, 9, 1, 0]⟩] >>= fun _ => do
        let tree ← this
        let root ← deref tree.root
        let header ← headerOf root
        pure (root, header.prefixLength) : Run PrefixHeader (Key 11) (Key 11) 11 (Addr × ℕ))
      (blankState PrefixHeader (Traits.identity 11))) = some (3, 9) := by decide +kernel
  obtain ⟨t, reading⟩ := Exec.ok_of_value? run evaluated
  rw [Exec.bind_of_ok (this_apply s)] at reading
  rcases root : s.tree.root with _ | r
  · rw [root] at reading
    cases reading
  · rw [root, deref_some, Exec.pure_bind_apply] at reading
    obtain ⟨header, s', read, answer⟩ := Exec.bind_eq_ok.mp reading
    obtain ⟨q, l, cell⟩ := exists_cell_of_headerOf read
    have inner : IsInner s r header l := ⟨⟨r, root, .refl r⟩, q, cell⟩
    obtain ⟨p, w, invariant⟩ := prefixInvariant_of_history fits history inner
    have nine : header.prefixLength = 9 := congrArg Prod.snd (EStateM.Result.ok.inj answer).1
    obtain ⟨e, M, own, holds, -⟩ := history.holds fits
    obtain ⟨s₁, s₂, above, below, joined, split, -, -, -, merge, restored, -, length, -⟩ :=
      compress_undoes_split (Traits.identity 11) s r p header l w 3 invariant (by omega) holds.calm
    exact ⟨s, s₁, s₂, r, s.mem.next, p, joined, l, run, split, merge, restored, length.trans nine⟩

end ArPrefixTree

end CppArt
