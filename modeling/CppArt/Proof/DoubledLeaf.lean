/-
**A leaf with two parents.**

When `_prefix_length` has wrapped, a leaf may stand in the slot of a byte that its key does not have at
the node's index. An insertion that comes through this slot puts a new node above the leaf, and
`update_child_ptr` links it by the byte of the leaf's key: the leaf is then found in two places
(`Wrapped.insertUnique_doubled`). When it is erased in one of them, the other slot keeps a pointer to
the deleted leaf (`Doubled.eraseUnique_dangles`), and `prefix_mismatch_pos` reads the key of the minimum
through it.
-/

import CppArt.Proof.Overflow

namespace CppArt

open Table

namespace ArPrefixTree

variable {K V : Type} {n : ℕ} {tr : Traits K V n} {x x' y : V} {s : ArPrefixTree.State K V n}
  {g a b : Addr} {front : Vector Byte maxPrefixLength} {l : Layout}

/-- **Three keys.** The first two differ for the first time at byte 65546, so that the prefix of their node
has the length 10. The slot of the second one is that of byte 10 of the third, and its own byte 10 is the
slot of the first. -/
structure Clash (tr : Traits K V n) (x x' y : V) : Prop where
  long : 65546 < n
  agree : Word.Agree 65546 (tr.keyOf x') (tr.keyOf x)
  less : (tr.keyOf x').letter 65546 < (tr.keyOf x).letter 65546
  slot : (tr.keyOf x').letter 10 = (tr.keyOf x).letter 65546
  shared : Word.Agree 10 (tr.keyOf y) (tr.keyOf x')
  through : (tr.keyOf y).letter 10 = (tr.keyOf x').letter 65546
  differ : (tr.keyOf y).letter 11 ≠ (tr.keyOf x').letter 11

/-- The key of the minimum below a node whose first child is a leaf. -/
theorem minKey_of_leaf {h : PrefixHeader} {p q : Option Addr} {v : V}
    (cell : s.mem.get g = some ⟨p, .inner h l⟩) (first : l.extremeChild .up = .ok b)
    (leaf : s.mem.get b = some ⟨q, .leaf v⟩) : minKey tr g s = .ok (tr.keyOf v) s := by
  have reached : extreme .up g s = .ok b s := by
    show extremeFrom .up (n + 2) g s = _
    rw [extremeFrom, Exec.bind_of_ok (load_ok cell)]
    simp only [first]
    show extremeFrom .up (n + 1) b s = _
    rw [extremeFrom, Exec.bind_of_ok (load_ok leaf)]
    rfl
  unfold minKey
  rw [Exec.bind_of_ok reached, Exec.bind_of_ok (leafValue_ok leaf)]
  rfl

/-- The minimum of two children. -/
theorem extremeChild_of_two {b₁ b₂ : Byte} {c₁ c₂ : Addr} (wf : l.WF) (count : l.count = 2)
    (less : b₁ < b₂) (children : ∀ b', l.child b' = if b' = b₁ then some c₁
      else if b' = b₂ then some c₂ else none) : l.extremeChild .up = .ok c₁ := by
  obtain ⟨b', c, run, child, least⟩ := Layout.extremeChild_spec wf (by omega) .up
  have found : l.child b₁ = some c₁ := by rw [children, if_pos rfl]
  have same : b' = b₁ := by
    by_contra other
    have before := least.2 _ (Layout.mem_bytes_of_child found) (Ne.symm other)
    rw [children, if_neg other] at child
    split_ifs at child with second
    exact absurd (second ▸ before : b₂ < b₁) less.not_gt
  rw [same, found, Option.some.injEq] at child
  rw [run, child]

/-- The position of a key that has all bytes of the prefix. -/
theorem prefixMismatchPos_of_shared {h : PrefixHeader} {p : Option Addr} {k w : Key n}
    (cell : s.mem.get g = some ⟨p, .inner h l⟩) (least : minKey tr g s = .ok w s)
    (spells : h.Spells h.depth w) (bound : branch h < n)
    (shared : ∀ i < h.prefixLength, k.letter (h.depth + i) = w.letter (h.depth + i)) :
    prefixMismatchPos tr g k s = .ok h.prefixLength s := by
  obtain ⟨pos, run, -, ends⟩ := prefixMismatchPos_run (k := k) cell least spells bound
  rcases ends with rfl | ⟨inside, differ⟩
  · exact run
  · exact absurd (shared pos inside) differ

/-- **After the third insertion**: the leaf `b` is a child of the root and of the new node `c`. -/
structure Doubled (tr : Traits K V n) (s : ArPrefixTree.State K V n) (x x' y : V) (g c b it : Addr)
    (front front' : Vector Byte maxPrefixLength) (l l' : Layout) : Prop where
  root : s.tree.root = some g
  top : ∃ dm, s.mem.get g = some ⟨some dm, .inner ⟨0, 10, front⟩ l⟩
  spells : ∀ i < min 10 maxPrefixLength, front[i]? = some ((tr.keyOf x').letter i)
  wf : l.WF
  count : l.count = 2
  children : ∀ b', l.child b' = if b' = (tr.keyOf x').letter 65546 then some b
    else if b' = (tr.keyOf x).letter 65546 then some c else none
  inner : s.mem.get c = some ⟨some g, .inner ⟨11, 0, front'⟩ l'⟩
  wf' : l'.WF
  type' : l'.getType = .node4
  count' : l'.count = 2
  children' : ∀ b', l'.child b' = if b' = (tr.keyOf y).letter 11 then some it
    else if b' = (tr.keyOf x').letter 11 then some b else none
  first : s.mem.get b = some ⟨some c, .leaf x'⟩
  second : s.mem.get it = some ⟨some c, .leaf y⟩
  stateless : s.tree.keyTransform = tr.defaultTransform

/-- **The third insertion** comes to the leaf through the slot that is not its own. -/
theorem Wrapped.insertUnique_doubled (wrapped : Wrapped tr s x x' g a b 65546 10 front l)
    (clash : Clash tr x x' y) :
    ∃ c it s' front' l₁ l', insertUnique tr y s = .ok (it, true) s' ∧
      Doubled tr s' x x' y g c b it front front' l₁ l' := by
  obtain ⟨long, agree, less, slot, shared, through, differ⟩ := clash
  obtain ⟨steps, rfl⟩ : ∃ t, n = t + 1 := ⟨n - 1, by omega⟩
  obtain ⟨root, ⟨dm, cell⟩, spells, wf, type, count, children, first, second, size, stateless, calm, -⟩ :=
    wrapped
  have bound : branch (⟨0, 10, front⟩ : PrefixHeader) < steps + 1 := by
    show 0 + 10 < steps + 1
    omega
  have least : minKey tr g s = .ok (tr.keyOf x') s :=
    minKey_of_leaf cell (extremeChild_of_two wf count less children) second
  have position : prefixMismatchPos tr g (tr.keyOf y) s = .ok 10 s :=
    prefixMismatchPos_of_shared cell least (fun i lt => by rw [Nat.zero_add]; exact spells i lt) bound
      fun i lt => by rw [Nat.zero_add]; exact shared i lt
  have entered : Variant.enter tr g (tr.keyOf y) 0 s = .ok (g, 10) s := by
    show enter tr g (tr.keyOf y) 0 s = _
    unfold enter
    rw [Exec.bind_of_ok position, Exec.bind_of_ok (headerOf_ok cell), if_neg (lt_irrefl 10)]
    rfl
  have found : l.child ((tr.keyOf y).letter 10) = some b := by
    rw [through, children, if_pos rfl]
  -- the new node above the leaf, and the slot of the leaf's byte
  obtain ⟨mem₁, raised, cellC, cellB, next₁, calm₁, kept₁⟩ :=
    newOneWay_spec (s := s) second calm ((tr.keyOf x').letter 11) (plainHeader 11)
  have notB : g ≠ b := by
    rintro rfl
    rw [cell] at second
    cases second
  have olderG := Memory.lt_next_of_get cell
  have cell₁ : mem₁.get g = some ⟨some dm, .inner ⟨0, 10, front⟩ l⟩ := (kept₁ g notB olderG).trans cell
  have own : l.child ((tr.keyOf x').letter 10) = some a := by
    rw [slot, children, if_neg less.ne', if_pos rfl]
  obtain ⟨l₁, replaced, wf₁, -, count₁, children₁⟩ := Layout.updateChildPtr_spec wf s.mem.next own
  let mem₂ := mem₁.set g ⟨some dm, .inner ⟨0, 10, front⟩ l₁⟩
  have cellC₂ : mem₂.get s.mem.next = _ := (Memory.set_get_of_ne _ _ olderG.ne').trans cellC
  have redirected : updateChildPtr g s.mem.next (tr.keyOf x') (s.withMem mem₁)
      = .ok ⟨⟩ (s.withMem mem₂) :=
    (updateChildPtr_inner (s := s.withMem mem₁) cell₁ bound _).trans
      (replaceChild_inner (s := s.withMem mem₁) cell₁ replaced)
  have none : uint16 ((11 : ℕ) - (11 : ℕ) : ℤ) = 0 := by decide
  obtain ⟨front', copied, -⟩ := copyRange_ok (tr.keyOf y).chunks (plainHeader 11).stored 11
    (11 + min (uint16 ((11 : ℕ) - (11 : ℕ) : ℤ)) maxPrefixLength) 0 (by rw [none]; omega)
    (by rw [none]; omega)
  rw [none] at copied
  let mem₃ := mem₂.set s.mem.next ⟨some g, .inner ⟨11, 0, front'⟩
    (.oneWay ((tr.keyOf x').letter 11) b)⟩
  have cellC₃ := Memory.set_get_self cellC₂ ⟨some g, .inner ⟨11, 0, front'⟩
    (.oneWay ((tr.keyOf x').letter 11) b)⟩
  have split : Variant.splitLeaf (steps + 1) b (tr.keyOf x') (tr.keyOf y) 11 s
      = .ok (s.mem.next, 11) (s.withMem mem₃) := by
    show splitLeaf (steps + 1) b (tr.keyOf x') (tr.keyOf y) 11 s = _
    obtain ⟨rounds, enough⟩ : ∃ t, steps + 1 - 11 = t + 1 := ⟨steps - 11, by omega⟩
    unfold splitLeaf
    rw [enough, tiebreak, Exec.bind_of_ok (chunkAt_ok (i := 11) (tr.keyOf y) (by omega) s),
      Exec.bind_of_ok (chunkAt_ok (i := 11) (tr.keyOf x') (by omega) s), if_pos differ]
    refine (Exec.bind_of_ok raised _).trans ?_
    refine (Exec.bind_of_ok (parentOf_ok (s := s.withMem mem₁) cellC) _).trans ?_
    refine (Exec.bind_of_ok redirected _).trans ?_
    simp only [copied, none]
    exact Exec.bind_of_ok (setHeader_ok (s := s.withMem mem₂) cellC₂ _) _
  -- the new leaf
  obtain ⟨wfC, countC, childrenC⟩ := Layout.oneWay_spec ((tr.keyOf x').letter 11) b
  have missing : (Layout.oneWay ((tr.keyOf x').letter 11) b).child ((tr.keyOf y).letter 11) = Option.none := by
    rw [childrenC, if_neg differ]
  obtain ⟨l', inserted, wf', type', count', children'⟩ := Layout.insert_spec wfC mem₃.next
    (by rw [countC]; exact (by decide : 1 < 4)) missing
  let mem₄ := mem₃.alloc ⟨some s.mem.next, .leaf y⟩
  have cellC₄ := Memory.alloc_get_of_get cellC₃ ⟨some s.mem.next, .leaf y⟩
  let mem₅ := mem₄.set s.mem.next ⟨some g, .inner ⟨11, 0, front'⟩ l'⟩
  have next₃ : mem₃.next = s.mem.next + 1 := next₁
  have kept : ∀ z, z ≠ s.mem.next → z < s.mem.next → mem₅.get z = mem₂.get z := fun z other lt =>
    (Memory.set_get_of_ne _ _ other).trans ((Memory.alloc_get_of_ne _ _ ((Nat.lt_succ_of_lt lt).trans_eq next₃.symm).ne).trans
      (Memory.set_get_of_ne _ _ other))
  refine ⟨s.mem.next, mem₃.next, (s.withMem mem₅).withCount (s.tree.count + 1), front', l₁, l', ?_, ?_⟩
  · have key : tr.defaultTransform (tr.keyOfValue y) = tr.keyOf y := rfl
    have other : tr.keyOf y ≠ tr.defaultTransform (tr.keyOfValue x') := fun same => differ (by rw [same]; rfl)
    unfold insertUnique
    rw [Exec.bind_of_ok (this_apply s)]
    simp only [root, stateless, key]
    rw [insertLoop, if_pos (Nat.succ_pos _)]
    simp only []
    rw [Exec.bind_of_ok (isLeaf_inner cell), if_neg Bool.false_ne_true, Exec.bind_of_ok entered]
    simp only []
    rw [Exec.bind_of_ok (chunkAt_ok (i := 10) (tr.keyOf y) (by omega) s),
      Exec.bind_of_ok (findChild_ok cell wf _), found]
    rw [insertLoop, if_pos (by omega)]
    simp only []
    rw [Exec.bind_of_ok (isLeaf_leaf second), if_pos rfl, Exec.bind_of_ok (leafValue_ok second),
      Exec.bind_of_ok (this_apply s), stateless, if_neg other]
    refine (Exec.bind_of_ok split _).trans ?_
    simp only []
    rw [Exec.bind_of_ok (new_ok (s := s.withMem mem₃) _ calm₁),
      Exec.bind_of_ok (chunkAt_ok (i := 11) (tr.keyOf y) (by omega) _)]
    exact (Exec.bind_of_ok (insertChild_ok (s := s.withMem mem₄) cellC₄ inserted) _).trans rfl
  · have notC : b ≠ s.mem.next := (Memory.lt_next_of_get second).ne
    have newer : mem₃.next ≠ s.mem.next := by
      rw [next₃]
      exact Nat.succ_ne_self _
    refine ⟨root, ⟨dm, ?_⟩, spells, wf₁, count₁.trans count, fun b' => ?_, Memory.set_get_self cellC₄ _, wf',
      type', ?_, fun b' => ?_, ?_, ?_, stateless⟩
    · exact (kept g olderG.ne olderG).trans (Memory.set_get_self cell₁ _)
    · rw [children₁, children, slot]
      by_cases here : b' = (tr.keyOf x).letter 65546
      · rw [if_pos here, if_neg (here ▸ less.ne'), if_pos here]
      · rw [if_neg here, if_neg here, if_neg here]
    · rw [count', countC]
    · rw [children', childrenC]
    · exact (kept b notC (Memory.lt_next_of_get second)).trans
        ((Memory.set_get_of_ne _ _ notB.symm).trans cellB)
    · exact (Memory.set_get_of_ne _ _ newer).trans (Memory.alloc_get_next _ _)

/-- **After the erasure**: the first child of the root is a pointer to a deleted leaf. -/
structure Dangling (tr : Traits K V n) (s : ArPrefixTree.State K V n) (x' : V) (g b : Addr)
    (front : Vector Byte maxPrefixLength) (l : Layout) : Prop where
  root : s.tree.root = some g
  top : ∃ dm, s.mem.get g = some ⟨some dm, .inner ⟨0, 10, front⟩ l⟩
  spells : ∀ i < min 10 maxPrefixLength, front[i]? = some ((tr.keyOf x').letter i)
  first : l.extremeChild .up = .ok b
  deleted : s.mem.get b = none

/-- **`erase_unique`** finds the leaf below the new node, which gives way to the other leaf. -/
theorem Doubled.eraseUnique_dangles {c it : Addr} {front' : Vector Byte maxPrefixLength} {l' : Layout}
    (doubled : Doubled tr s x x' y g c b it front front' l l') (clash : Clash tr x x' y) {k : K}
    (same : tr.defaultTransform k = tr.keyOf x') :
    ∃ s' l₂, eraseUnique tr k s = .ok 1 s' ∧ Dangling tr s' x' g b front l₂ := by
  obtain ⟨long, agree, less, slot, shared, through, differ⟩ := clash
  obtain ⟨steps, rfl⟩ : ∃ t, n = t + 2 := ⟨n - 2, by omega⟩
  obtain ⟨root, ⟨dm, cell⟩, spells, wf, count, children, inner, wf', type', count', children', first,
    second, stateless⟩ := doubled
  have bound : branch (⟨0, 10, front⟩ : PrefixHeader) < steps + 2 := by
    show 0 + 10 < steps + 2
    omega
  have passed : Variant.pass tr g (tr.keyOf x') 0 s = .ok (some 10) s := by
    have position : prefixMismatchPos tr g (tr.keyOf x') s = .ok 10 s :=
      prefixMismatchPos_of_shared cell (minKey_of_leaf cell (extremeChild_of_two wf count less children)
        first) (fun i lt => by rw [Nat.zero_add]; exact spells i lt) bound fun i lt => rfl
    show pass tr g (tr.keyOf x') 0 s = _
    unfold pass
    rw [Exec.bind_of_ok position, Exec.bind_of_ok (headerOf_ok cell), if_neg (lt_irrefl 10)]
    rfl
  have passed' : Variant.pass tr c (tr.keyOf x') 11 s = .ok (some 11) s := by
    have position : prefixMismatchPos tr c (tr.keyOf x') s = .ok 0 s := by
      unfold prefixMismatchPos
      rw [Exec.bind_of_ok (headerOf_ok inner)]
      rfl
    show pass tr c (tr.keyOf x') 11 s = _
    unfold pass
    rw [Exec.bind_of_ok position, Exec.bind_of_ok (headerOf_ok inner)]
    rfl
  have found : l.child ((tr.keyOf x').letter 10) = some c := by
    rw [slot, children, if_neg less.ne', if_pos rfl]
  have found' : l'.child ((tr.keyOf x').letter 11) = some b := by
    rw [children', if_neg differ.symm, if_pos rfl]
  have notG : g ≠ b := by
    rintro rfl
    rw [cell] at first
    cases first
  have notC : c ≠ b := by
    rintro rfl
    rw [inner] at first
    cases first
  have notIt : it ≠ b := by
    rintro rfl
    rw [first, Option.some.injEq, Cell.mk.injEq, Body.leaf.injEq] at second
    exact differ (by rw [second.2])
  have apart : g ≠ c := by
    rintro rfl
    rw [cell, Option.some.injEq, Cell.mk.injEq, Body.inner.injEq, PrefixHeader.mk.injEq] at inner
    exact absurd inner.2.1.1 (by decide)
  have apart' : c ≠ it := by
    rintro rfl
    rw [inner] at second
    cases second
  have apart'' : g ≠ it := by
    rintro rfl
    rw [cell] at second
    cases second
  -- the leaf is erased from the new node
  obtain ⟨l₁, erased, wf₁, type₁, count₁, children₁⟩ := Layout.erase_spec wf' found'
  let mem₁ := (s.mem.free b).set c ⟨some g, .inner ⟨11, 0, front'⟩ l₁⟩
  let s₁ := (s.withMem mem₁).withCount (s.tree.count - 1)
  have inner₁ : s₁.mem.get c = some ⟨some g, .inner ⟨11, 0, front'⟩ l₁⟩ :=
    Memory.set_get_self ((Memory.free_get_of_ne _ notC).trans inner) _
  have second₁ : s₁.mem.get it = some ⟨some c, .leaf y⟩ := (Memory.set_get_of_ne _ _ apart'.symm).trans
    ((Memory.free_get_of_ne _ notIt).trans second)
  have left : l₁.child ((tr.keyOf y).letter 11) = some it := by
    rw [children₁, if_neg differ, children', if_pos rfl]
  have one : l₁.count = 1 := by omega
  -- which gives way to its only child
  have inner₂ : (s₁.mem.set it ⟨some g, .leaf y⟩).get c = _ :=
    (Memory.set_get_of_ne _ _ apart').trans inner₁
  let mem₂ := (s₁.mem.set it ⟨some g, .leaf y⟩).free c
  have shrunk : shrink c s₁ = .ok (it, true) (s₁.withMem mem₂) :=
    shrink_leaf wf₁ inner₁ (type₁.trans type') left one second₁ inner₂
  have second₂ : (s₁.withMem mem₂).mem.get it = some ⟨some g, .leaf y⟩ :=
    (Memory.free_get_of_ne _ apart'.symm).trans (Memory.set_get_self second₁ _)
  have cell₂ : mem₂.get g = some ⟨some dm, .inner ⟨0, 10, front⟩ l⟩ :=
    (Memory.free_get_of_ne _ apart).trans ((Memory.set_get_of_ne _ _ apart'').trans
      ((Memory.set_get_of_ne _ _ apart).trans ((Memory.free_get_of_ne _ notG).trans cell)))
  obtain ⟨l₂, replaced, wf₂, -, count₂, children₂⟩ := Layout.updateChildPtr_spec wf it found
  let mem₃ := mem₂.set g ⟨some dm, .inner ⟨0, 10, front⟩ l₂⟩
  have redirected : updateChildPtr g it (tr.keyOf x') (s₁.withMem mem₂) = .ok ⟨⟩ (s₁.withMem mem₃) :=
    (updateChildPtr_inner (s := s₁.withMem mem₂) cell₂ bound _).trans
      (replaceChild_inner (s := s₁.withMem mem₂) cell₂ replaced)
  have second₃ : (s₁.withMem mem₃).mem.get it = some ⟨some g, .leaf y⟩ :=
    (Memory.set_get_of_ne _ _ apart''.symm).trans second₂
  have repaired : Variant.fixAfterErase c (tr.keyOf x') s₁ = .ok ⟨⟩ (s₁.withMem mem₃) := by
    have few : l₁.count < l₁.minSize := by
      rw [Layout.count_lt_minSize_iff (type₁.trans type'), one]
      exact Nat.one_lt_two
    show fixAfterErase c (tr.keyOf x') s₁ = _
    rw [fixAfterErase_small inner₁ few shrunk second₂ redirected,
      Exec.bind_of_ok (getType_leaf second₃), Exec.bind_of_ok (sizeOf_leaf second₃),
      if_neg fun both => NodeType.noConfusion both.1]
    rfl
  refine ⟨s₁.withMem mem₃, l₂, ?_, root, ⟨dm, Memory.set_get_self cell₂ _⟩, spells, ?_, ?_⟩
  · have equal : tr.keyOf x' = tr.defaultTransform (tr.keyOfValue x') := rfl
    unfold eraseUnique
    rw [Exec.bind_of_ok (this_apply s)]
    simp only [root, stateless, same]
    rw [Exec.bind_of_ok (isLeaf_inner cell), if_neg Bool.false_ne_true, eraseLoop,
      if_pos (Nat.succ_pos _), Exec.bind_of_ok passed]
    simp only []
    rw [Exec.bind_of_ok (chunkAt_ok (i := 10) (tr.keyOf x') (by omega) s),
      Exec.bind_of_ok (findChild_ok cell wf _), found]
    simp only []
    rw [Exec.bind_of_ok (isLeaf_inner inner), if_neg Bool.false_ne_true, eraseLoop, if_pos (by omega),
      Exec.bind_of_ok passed']
    simp only []
    rw [Exec.bind_of_ok (chunkAt_ok (i := 11) (tr.keyOf x') (by omega) s),
      Exec.bind_of_ok (findChild_ok inner wf' _), found']
    simp only []
    rw [Exec.bind_of_ok (isLeaf_leaf first), if_pos rfl, Exec.bind_of_ok (leafValue_ok first),
      Exec.bind_of_ok (this_apply s), stateless, if_pos equal,
      Exec.bind_of_ok (eraseChild_ok inner erased first)]
    exact (Exec.bind_of_ok repaired _).trans rfl
  · have slots : ∀ b', l₂.child b' = if b' = (tr.keyOf x').letter 65546 then some b
        else if b' = (tr.keyOf x).letter 65546 then some it else none := by
      intro b'
      rw [children₂, children, slot]
      by_cases here : b' = (tr.keyOf x).letter 65546
      · rw [if_pos here, if_neg (here ▸ less.ne'), if_pos here]
      · rw [if_neg here, if_neg here, if_neg here]
    exact extremeChild_of_two wf₂ (count₂.trans count) less slots
  · have gone : mem₁.get b = none := (Memory.set_get_of_ne _ _ notC.symm).trans (Memory.free_get_self _ _)
    exact (Memory.set_get_of_ne _ _ notG.symm).trans ((Memory.free_get_of_ne _ notC.symm).trans
      ((Memory.set_get_of_ne _ _ notIt.symm).trans gone))

/-- **`prefix_mismatch_pos`** reads the key of the deleted leaf. -/
theorem Dangling.prefixMismatchPos_dangles (dangling : Dangling tr s x' g b front l) {k : Key n}
    (shared : Word.Agree 10 k (tr.keyOf x')) (long : 10 < n) :
    prefixMismatchPos tr g k s = .error .dangling s := by
  obtain ⟨root, ⟨dm, cell⟩, spells, first, deleted⟩ := dangling
  have least : minKey tr g s = .error .dangling s := by
    have reached : extreme .up g s = .error .dangling s := by
      show extremeFrom .up (n + 2) g s = _
      rw [extremeFrom, Exec.bind_of_ok (load_ok cell)]
      simp only [first]
      show extremeFrom .up (n + 1) b s = _
      have missing : load b s = .error .dangling s := by
        unfold load
        rw [deleted]
      rw [extremeFrom]
      exact Exec.bind_of_error missing _
    unfold minKey
    exact Exec.bind_of_error reached _
  unfold prefixMismatchPos
  rw [Exec.bind_of_ok (headerOf_ok cell)]
  have reads : ∀ i, 0 ≤ i → i < 0 + min 10 maxPrefixLength →
      storedAt ⟨0, 10, front⟩ i s = .ok ((tr.keyOf x').letter (0 + i)) s := fun i _ lt =>
    storedAt_ok (d := 0) (fun j lt' => by rw [Nat.zero_add]; exact spells j lt')
      (lt.trans_eq (Nat.zero_add _))
  rcases mismatchFrom_spec (tr.keyOf x') (min 10 maxPrefixLength) 0 (by omega) reads with
    ⟨run, -⟩ | ⟨j, -, lt, run, -, differ⟩
  · refine (Exec.bind_of_ok run _).trans ?_
    simp only []
    rw [if_pos (by decide : maxPrefixLength < 10)]
    exact Exec.bind_of_error least _
  · exact absurd (shared (0 + j) (by omega)) differ

/-! ### Keys of 65547 bytes -/

/-- A key of 65547 bytes. -/
def wideKey (byteAt : ℕ → Byte) : Key 65547 := ⟨Vector.ofFn fun i => byteAt i.val⟩

theorem wideKey_letter (byteAt : ℕ → Byte) {i : ℕ} (lt : i < 65547) :
    (wideKey byteAt).letter i = byteAt i := by
  rw [Word.letter_of_lt _ lt]
  exact Vector.getElem_ofFn lt

/-- All bytes are `2`. -/
def firstKey : Key 65547 := wideKey fun _ => 2

/-- All bytes are `2`, but the last one is `1`. -/
def secondKey : Key 65547 := wideKey fun i => if i = 65546 then 1 else 2

/-- All bytes are `2`, but byte 10 is `1` and byte 11 is `3`. -/
def thirdKey : Key 65547 := wideKey fun i => if i = 10 then 1 else if i = 11 then 3 else 2

theorem clash_keys : Clash (Traits.identity 65547) firstKey secondKey thirdKey where
  long := by omega
  agree i lt := by
    show secondKey.letter i = firstKey.letter i
    rw [secondKey, firstKey, wideKey_letter _ (by omega), wideKey_letter _ (by omega), if_neg lt.ne]
  less := by
    show secondKey.letter 65546 < firstKey.letter 65546
    rw [secondKey, firstKey, wideKey_letter _ (by omega), wideKey_letter _ (by omega), if_pos rfl]
    decide
  slot := by
    show secondKey.letter 10 = firstKey.letter 65546
    rw [secondKey, firstKey, wideKey_letter _ (by omega), wideKey_letter _ (by omega), if_neg (by omega)]
  shared i lt := by
    show thirdKey.letter i = secondKey.letter i
    rw [thirdKey, secondKey, wideKey_letter _ (by omega), wideKey_letter _ (by omega), if_neg lt.ne,
      if_neg (by omega), if_neg (by omega)]
  through := by
    show thirdKey.letter 10 = secondKey.letter 65546
    rw [thirdKey, secondKey, wideKey_letter _ (by omega), wideKey_letter _ (by omega), if_pos rfl,
      if_pos rfl]
  differ := by
    show thirdKey.letter 11 ≠ secondKey.letter 11
    rw [thirdKey, secondKey, wideKey_letter _ (by omega), wideKey_letter _ (by omega),
      if_neg (by omega), if_pos rfl, if_neg (by omega)]
    decide

/-- **Three insertions and an erasure** leave a pointer to a deleted leaf in the root. -/
theorem exists_dangling :
    ∃ (s : ArPrefixTree.State (Key 65547) (Key 65547) 65547) (m : Table Byte 65547 (Key 65547))
      (g b : Addr) (front : Vector Byte maxPrefixLength) (l : Layout),
      History (Traits.identity 65547) s m ∧ Dangling (Traits.identity 65547) s secondKey g b front l := by
  have clash := clash_keys
  have calm : (Memory.blank : Memory (Cell PrefixHeader (Key 65547))).failAt = none := rfl
  obtain ⟨s₀, founded, holds₀, -, -⟩ := init_spec (Traits.identity 65547) calm
    (Tree.uninitialised (Traits.identity 65547).defaultTransform) rfl
  obtain ⟨-, a, s₁, own₁, run₁, holds₁, -, root₁⟩ := insertUnique_first holds₀ (root_eq_none holds₀) firstKey
  obtain ⟨g, b, front, s₂, l, run₂, wrapped⟩ := insertUnique_wrapped holds₁ root₁ clash.long clash.agree
    clash.less.ne (by decide : uint16 (((65546 : ℕ) : ℤ) - ((0 : ℕ) : ℤ)) = 10) (by omega)
  obtain ⟨c, it, s₃, front', l₁, l', run₃, doubled⟩ := wrapped.insertUnique_doubled clash
  obtain ⟨s₄, l₂, run₄, dangling⟩ := doubled.eraseUnique_dangles (k := secondKey) clash rfl
  have history₀ : History (Traits.identity 65547) s₀ Table.empty := .start rfl founded
  exact ⟨s₄, _, g, b, front, l₂, .call (.call (.call (.call history₀ (.insert firstKey)
    (Exec.bind_of_ok run₁ _)) (.insert secondKey) (Exec.bind_of_ok run₂ _)) (.insert thirdKey)
    (Exec.bind_of_ok run₃ _)) (.erase secondKey) (Exec.bind_of_ok run₄ _), dangling⟩

end ArPrefixTree

end CppArt
