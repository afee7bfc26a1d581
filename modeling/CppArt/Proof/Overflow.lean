/-
**Prefixes that do not fit `_prefix_length`.**

Two keys of an `ar_prefix_tree` that differ for the first time at byte 65536 have a common prefix of
65536 bytes. `_prefix_length` is a `uint16_t`, so the node above the two leaves gets the prefix length
`0` and branches on byte `0`, while its children are stored under their bytes at 65536. From the leaf
of the smaller key `++` reads byte `0`, and when that is below the byte at 65536 it finds the same leaf
again (`Misplaced.increment`). This is why the laws of `ar_prefix_tree` are proved for keys of at most 65536
bytes.
-/

import CppArt.Proof.Refinement

namespace CppArt

open Table

namespace ArPrefixTree

variable {K V : Type} {n : ℕ} {tr : Traits K V n} {x x' : V}

/-- `_prefix_length` after the conversion. -/
theorem uint16_wraps : uint16 (((65536 : ℕ) : ℤ) - ((0 : ℕ) : ℤ)) = 0 := by decide

/-- What is left after the two insertions: a node that branches on the wrong byte. -/
structure Misplaced (tr : Traits K V n) (s : ArPrefixTree.State K V n) (x x' : V) (node leaf leaf' : Addr)
    (l : Layout) : Prop where
  root : s.tree.root = some node
  parent : ∃ dm h, s.mem.get node = some ⟨some dm, .inner h l⟩ ∧ branch h = 0
  wf : l.WF
  count : 0 < l.count
  children : ∀ b, l.child b = if b = (tr.keyOf x').letter 65536 then some leaf'
    else if b = (tr.keyOf x).letter 65536 then some leaf else none
  first : s.mem.get leaf = some ⟨some node, .leaf x⟩
  size : s.tree.count = 2
  stateless : s.tree.keyTransform = tr.defaultTransform
  finish : ∃ e, endIt s = .ok e s ∧ e ≠ leaf

/-- What is left after the two insertions, with the prefix length as it has been converted. -/
structure Wrapped (tr : Traits K V n) (s : ArPrefixTree.State K V n) (x x' : V) (node leaf leaf' : Addr)
    (r length : ℕ) (front : Vector Byte maxPrefixLength) (l : Layout) : Prop where
  root : s.tree.root = some node
  top : ∃ dm, s.mem.get node = some ⟨some dm, .inner ⟨0, length, front⟩ l⟩
  spells : ∀ i < min length maxPrefixLength, front[i]? = some ((tr.keyOf x').letter i)
  wf : l.WF
  type : l.getType = .node4
  count : l.count = 2
  children : ∀ b, l.child b = if b = (tr.keyOf x').letter r then some leaf'
    else if b = (tr.keyOf x).letter r then some leaf else none
  first : s.mem.get leaf = some ⟨some node, .leaf x⟩
  second : s.mem.get leaf' = some ⟨some node, .leaf x'⟩
  size : s.tree.count = 2
  stateless : s.tree.keyTransform = tr.defaultTransform
  calm : s.mem.failAt = none
  finish : ∃ e, endIt s = .ok e s ∧ e ≠ leaf

/-- **The second insertion**, into a tree of one leaf, whatever fits `_prefix_length`. -/
theorem insertUnique_wrapped {s : ArPrefixTree.State K V n} {e it : Addr} {own : Set Addr} {r length : ℕ}
    (holds : Holds tr s e (put Table.empty (tr.keyOf x) (it, x)) own) (root : s.tree.root = some it)
    (bound : r < n) (agree : Word.Agree r (tr.keyOf x') (tr.keyOf x))
    (letter : (tr.keyOf x').letter r ≠ (tr.keyOf x).letter r)
    (converted : uint16 ((r : ℤ) - ((0 : ℕ) : ℤ)) = length) (le : length ≤ r) :
    ∃ node leaf' front s' l, insertUnique tr x' s = .ok (leaf', true) s' ∧
      Wrapped tr s' x x' node it leaf' r length front l := by
  have differ : tr.keyOf x' ≠ tr.keyOf x := fun same => letter (by rw [same])
  have entry := put_self Table.empty (tr.keyOf x) (it, x)
  obtain ⟨rest, ctx, rep, clear, rfl⟩ := holds.path root (tr.keyOf x')
  obtain ⟨q, cell⟩ : ∃ q, s.mem.get it = some ⟨some q, .leaf x⟩ := (holds.entry entry).2.2.2
  obtain ⟨body, top⟩ := rep.top_cell
  obtain rfl : q = s.tree.dummyNode := by
    rw [cell, Option.some.injEq, Cell.mk.injEq, Option.some.injEq] at top
    exact top.1
  have off : it ∉ ({s.tree.dummyNode, e} : Set Addr) := fun inside =>
    Set.disjoint_left.mp clear inside rep.top_mem
  obtain ⟨front, copied, read⟩ := copyRange_ok (tr.keyOf x').chunks (plainHeader 0).stored 0
    (0 + min (uint16 ((r : ℤ) - ((0 : ℕ) : ℤ))) maxPrefixLength) 0
    (by rw [converted]; omega) (by omega)
  obtain ⟨s₁, split, ctx₁, cell₁, leaf₁, frame₁, -⟩ :=
    splitLeaf_run ctx cell off agree letter (Nat.zero_le _) bound (le_refl n) holds.calm copied
  rw [converted] at cell₁ read
  obtain ⟨wf, count, children⟩ := Layout.oneWay_spec ((tr.keyOf x).letter r) it
  have missing : (Layout.oneWay ((tr.keyOf x).letter r) it).child ((tr.keyOf x').letter r)
      = none := by rw [children, if_neg letter]
  obtain ⟨l', run, wf', type, count', children'⟩ := Layout.insert_spec wf s₁.mem.next
    (by rw [count]; exact (by decide : 1 < 4)) missing
  let g := s.mem.next
  let mem₂ := s₁.mem.alloc ⟨some g, .leaf x'⟩
  have cell₂ := Memory.alloc_get_of_get cell₁ ⟨some g, .leaf x'⟩
  let mem₃ := mem₂.set g ⟨some s.tree.dummyNode, .inner ⟨0, length, front⟩ l'⟩
  have calm : s₁.mem.failAt = none := frame₁.keeps.failAt.trans holds.calm
  refine ⟨g, s₁.mem.next, front, (s₁.withMem mem₃).withCount (s₁.tree.count + 1), l', ?_, ?_⟩
  · have reached : Variant.splitLeaf n it (tr.keyOf x) (tr.keyOf x') 0 s = .ok (g, r) s₁ := split
    unfold insertUnique
    rw [Exec.bind_of_ok (this_apply s)]
    simp only [holds.key_eq x', root]
    rw [insertLoop, if_pos (Nat.succ_pos n)]
    simp only []
    have differ' : tr.keyOf x' ≠ tr.defaultTransform (tr.keyOfValue x) := differ
    rw [Exec.bind_of_ok (isLeaf_leaf cell), if_pos rfl, Exec.bind_of_ok (leafValue_ok cell),
      Exec.bind_of_ok (this_apply s), holds.stateless, if_neg differ']
    refine (Exec.bind_of_ok reached _).trans ?_
    simp only []
    rw [Exec.bind_of_ok (new_ok _ calm), Exec.bind_of_ok (chunkAt_ok (tr.keyOf x') bound _)]
    exact (Exec.bind_of_ok (insertChild_ok (s := s₁.withMem mem₂) cell₂ run) _).trans rfl
  · have notG : it ≠ g := (Memory.lt_next_of_get cell).ne
    have newer : s₁.mem.next ≠ g := (Memory.lt_next_of_get cell₁).ne'
    have ended : ∃ e, endIt ((s₁.withMem mem₃).withCount (s₁.tree.count + 1))
        = .ok e ((s₁.withMem mem₃).withCount (s₁.tree.count + 1)) ∧ e ≠ it := by
      obtain ⟨-, sentinel, endLeaf, -, -⟩ := ctx₁.sentinel
      have notG' : s₁.tree.dummyNode ≠ g := by
        intro same
        rw [same, cell₁, Option.some.injEq, Cell.mk.injEq] at sentinel
        cases sentinel.2
      have kept : mem₃.get s₁.tree.dummyNode = s₁.mem.get s₁.tree.dummyNode :=
        (Memory.set_get_of_ne _ _ notG').trans
          (Memory.alloc_get_of_ne _ _ (Memory.lt_next_of_get sentinel).ne)
      refine ⟨e, ?_, ?_⟩
      · unfold endIt
        rw [Exec.bind_of_ok (this_apply _)]
        exact (Exec.bind_of_ok (load_ok (kept.trans sentinel)) _).trans rfl
      · rintro rfl
        rw [leaf₁, Option.some.injEq, Cell.mk.injEq] at endLeaf
        cases endLeaf.2
    refine ⟨?_, ⟨_, Memory.set_get_self cell₂ _⟩, fun i lt => ?_, wf', type, ?_, fun b => ?_, ?_, ?_, ?_,
      ?_, calm, ended⟩
    · exact ctx₁.root_eq frame₁.dummyNode.symm
    · rw [read i (by omega), if_pos ⟨Nat.zero_le i, by omega⟩, Word.chunks_getElem?_of_lt _ (by omega)]
      congr 2
      omega
    · rw [count', count]
    · rw [children', children]
    · exact (Memory.set_get_of_ne _ _ notG).trans (Memory.alloc_get_of_get leaf₁ _)
    · exact (Memory.set_get_of_ne _ _ newer).trans (Memory.alloc_get_next _ _)
    · show s₁.tree.count + 1 = 2
      rw [frame₁.count, holds.count, size_put_of_eq_none rfl, size_empty]
    · exact frame₁.keyTransform.trans holds.stateless

/-- The second insertion of a key that differs for the first time at byte 65536. -/
theorem insertUnique_misplaced {s : ArPrefixTree.State K V n} {e it : Addr} {own : Set Addr}
    (holds : Holds tr s e (put Table.empty (tr.keyOf x) (it, x)) own) (root : s.tree.root = some it)
    (long : 65536 < n) (agree : Word.Agree 65536 (tr.keyOf x') (tr.keyOf x))
    (letter : (tr.keyOf x').letter 65536 ≠ (tr.keyOf x).letter 65536) :
    ∃ node leaf' s' l, insertUnique tr x' s = .ok (leaf', true) s' ∧
      Misplaced tr s' x x' node it leaf' l := by
  obtain ⟨node, leaf', front, s', l, run, wrapped⟩ :=
    insertUnique_wrapped holds root long agree letter uint16_wraps (Nat.zero_le _)
  obtain ⟨dm, cell⟩ := wrapped.top
  refine ⟨node, leaf', s', l, run, wrapped.root, ⟨dm, _, cell, rfl⟩, wrapped.wf, ?_, wrapped.children,
    wrapped.first, wrapped.size, wrapped.stateless, wrapped.finish⟩
  rw [wrapped.count]
  exact Nat.succ_pos 1

/-- From the leaf of the smaller key, `++` finds that leaf again. -/
theorem Misplaced.increment {s : ArPrefixTree.State K V n} {node leaf leaf' : Addr} {l : Layout}
    (misplaced : Misplaced tr s x x' node leaf leaf' l) (long : 65536 < n)
    (below : (tr.keyOf x).letter 0 < (tr.keyOf x).letter 65536)
    (less : (tr.keyOf x).letter 65536 < (tr.keyOf x').letter 65536) :
    increment tr leaf s = .ok leaf s := by
  obtain ⟨root, ⟨dm, h, cell, here⟩, wf, count, children, first, size, -, -⟩ := misplaced
  have found : l.child ((tr.keyOf x).letter 65536) = some leaf := by
    rw [children, if_neg less.ne, if_pos rfl]
  have next : l.childBeyond .up ((tr.keyOf x).letter 0) = .ok (some leaf) := by
    rcases Layout.childBeyond_spec wf .up ((tr.keyOf x).letter 0) with ⟨-, none⟩ | ⟨b, c, run, child, least⟩
    · exact absurd below (none _ (Layout.mem_bytes_of_child found))
    · have same : b = (tr.keyOf x).letter 65536 := by
        by_contra differ
        rw [children] at child
        split_ifs at child with other
        have before := least.2 _ ⟨Layout.mem_bytes_of_child found, below⟩ (Ne.symm differ)
        exact absurd (other ▸ before : (tr.keyOf x').letter 65536 < (tr.keyOf x).letter 65536)
          less.not_gt
      rw [same, found, Option.some.injEq] at child
      rw [run, child]
  have key : tr.defaultTransform (tr.keyOfValue x) = tr.keyOf x := rfl
  unfold CppArt.increment advance
  rw [Exec.bind_of_ok (parentOf_ok first)]
  simp only [deref_some, Exec.pure_bind_apply]
  rw [Exec.bind_of_ok (getType_inner cell), if_neg (layout_getType_ne _).2,
    Exec.bind_of_ok (leafValue_ok first), key]
  have bound : branch h < n := by omega
  rw [← here] at next
  refine (neighbourFrom_inner .up (tr.keyOf x) (n + 1) cell bound next).trans ?_
  show extremeFrom .up (n + 2) leaf s = _
  rw [extremeFrom, Exec.bind_of_ok (load_ok first)]
  rfl

/-- The iteration begins at that leaf. -/
theorem Misplaced.begin {s : ArPrefixTree.State K V n} {node leaf leaf' : Addr} {l : Layout}
    (misplaced : Misplaced tr s x x' node leaf leaf' l)
    (less : (tr.keyOf x).letter 65536 < (tr.keyOf x').letter 65536) : beginIt s = .ok leaf s := by
  obtain ⟨root, ⟨dm, h, cell, here⟩, wf, count, children, first, size, -, -⟩ := misplaced
  have found : l.child ((tr.keyOf x).letter 65536) = some leaf := by
    rw [children, if_neg less.ne, if_pos rfl]
  have least : l.extremeChild .up = .ok leaf := by
    obtain ⟨b, c, run, child, least⟩ := Layout.extremeChild_spec wf count .up
    have same : b = (tr.keyOf x).letter 65536 := by
      by_contra differ
      rw [children] at child
      split_ifs at child with other
      have before := least.2 _ (Layout.mem_bytes_of_child found) (Ne.symm differ)
      exact absurd (other ▸ before : (tr.keyOf x').letter 65536 < (tr.keyOf x).letter 65536) less.not_gt
    rw [same, found, Option.some.injEq] at child
    rw [run, child]
  unfold beginIt
  rw [Exec.bind_of_ok (this_apply s)]
  simp only [root]
  show extremeFrom .up (n + 2) node s = _
  rw [extremeFrom, Exec.bind_of_ok (load_ok cell)]
  simp only [least]
  show extremeFrom .up (n + 1) leaf s = _
  rw [extremeFrom, Exec.bind_of_ok (load_ok first)]
  rfl

/-- The leaf at which the iteration begins is that of the smaller key. -/
theorem Misplaced.stored {s : ArPrefixTree.State K V n} {node leaf leaf' : Addr} {l : Layout}
    (misplaced : Misplaced tr s x x' node leaf leaf' l)
    (less : (tr.keyOf x).letter 65536 < (tr.keyOf x').letter 65536) : Stored s leaf x := by
  obtain ⟨root, ⟨dm, h, cell, here⟩, wf, count, children, first, size, -, -⟩ := misplaced
  have found : l.child ((tr.keyOf x).letter 65536) = some leaf := by
    rw [children, if_neg less.ne, if_pos rfl]
  have slot : l.find ((tr.keyOf x).letter 65536) = .ok (some leaf) := by
    rw [Layout.find_ok wf, found]
  exact ⟨node, _, root, .child cell slot (.refl leaf), first⟩

/-- `erase_unique` does not find the smaller key. -/
theorem Misplaced.eraseUnique {s : ArPrefixTree.State K V n} {node leaf leaf' : Addr} {l : Layout}
    (misplaced : Misplaced tr s x x' node leaf leaf' l) (long : 65536 < n)
    (below : (tr.keyOf x).letter 0 < (tr.keyOf x).letter 65536)
    (less : (tr.keyOf x).letter 65536 < (tr.keyOf x').letter 65536) {k : K}
    (same : tr.defaultTransform k = tr.keyOf x) : eraseUnique tr k s = .ok 0 s := by
  obtain ⟨root, ⟨dm, h, cell, here⟩, wf, count, children, first, size, stateless, -⟩ := misplaced
  obtain ⟨depth, plain⟩ : h.depth = 0 ∧ h.prefixLength = 0 := Nat.add_eq_zero_iff.mp here
  have missing : l.child ((tr.keyOf x).letter 0) = none := by
    rw [children, if_neg (below.trans less).ne, if_neg below.ne]
  have mismatch : prefixMismatchPos tr node (tr.keyOf x) s = .ok 0 s := by
    unfold prefixMismatchPos
    rw [Exec.bind_of_ok (headerOf_ok cell), plain]
    rfl
  have passed : Variant.pass tr node (tr.keyOf x) 0 s = .ok (some 0) s := by
    show pass tr node (tr.keyOf x) 0 s = _
    unfold pass
    rw [Exec.bind_of_ok mismatch, Exec.bind_of_ok (headerOf_ok cell), plain]
    rfl
  unfold CppArt.eraseUnique
  rw [Exec.bind_of_ok (this_apply s)]
  simp only [root, stateless, same]
  rw [Exec.bind_of_ok (isLeaf_inner cell), if_neg Bool.false_ne_true]
  obtain ⟨steps, rfl⟩ : ∃ t, n = t + 1 := ⟨n - 1, by omega⟩
  rw [eraseLoop, if_pos (Nat.succ_pos steps), Exec.bind_of_ok passed]
  simp only []
  rw [Exec.bind_of_ok (chunkAt_ok (tr.keyOf x) (Nat.succ_pos steps) s),
    Exec.bind_of_ok (findChild_ok cell wf _), missing]
  rfl

/-- **Two insertions into a new container** after which two elements are misplaced. -/
theorem exists_misplaced_runs (tr : Traits K V n) {x y : V} (long : 65536 < n)
    (agree : Word.Agree 65536 (tr.keyOf y) (tr.keyOf x))
    (less : (tr.keyOf x).letter 65536 < (tr.keyOf y).letter 65536) :
    ∃ (s₀ s₁ s : ArPrefixTree.State K V n) (node it it' : Addr) (l : Layout),
      init ⟨Memory.blank, Tree.uninitialised tr.defaultTransform⟩ = .ok ⟨⟩ s₀ ∧
      insertUnique tr x s₀ = .ok (it, true) s₁ ∧ insertUnique tr y s₁ = .ok (it', true) s ∧
      Misplaced tr s x y node it it' l := by
  have calm : (Memory.blank : Memory (Cell PrefixHeader V)).failAt = none := rfl
  obtain ⟨s₀, founded, holds₀, -, -⟩ := init_spec tr calm (Tree.uninitialised tr.defaultTransform) rfl
  obtain ⟨-, it, s₁, own₁, run₁, holds₁, -, root₁⟩ := insertUnique_first holds₀ (root_eq_none holds₀) x
  obtain ⟨node, leaf', s₂, l, run₂, misplaced⟩ :=
    insertUnique_misplaced holds₁ root₁ long agree less.ne'
  exact ⟨s₀, s₁, s₂, node, it, leaf', l, founded, run₁, run₂, misplaced⟩

/-- **A history after which two elements are misplaced.** -/
theorem exists_misplaced (tr : Traits K V n) {x x' : V} (long : 65536 < n)
    (agree : Word.Agree 65536 (tr.keyOf x') (tr.keyOf x))
    (less : (tr.keyOf x).letter 65536 < (tr.keyOf x').letter 65536) :
    ∃ (s : ArPrefixTree.State K V n) (node it it' : Addr) (l : Layout),
      History tr s (Table.ofList tr [x, x']) ∧ Misplaced tr s x x' node it it' l := by
  obtain ⟨s₀, s₁, s, node, it, it', l, founded, run, run', misplaced⟩ :=
    exists_misplaced_runs tr long agree less
  have history₀ : History tr s₀ Table.empty := .start rfl founded
  exact ⟨s, node, it, it', l, .call (.call history₀ (.insert x) (Exec.bind_of_ok run _))
    (.insert x') (Exec.bind_of_ok run' _), misplaced⟩

end ArPrefixTree

end CppArt
