/-
**Calls that are rejected.**

The descent of an insertion restructures the tree as it walks, but only where it leaves the path of
every stored key: a walk that ends in a leaf of its own key has changed nothing (`insertUnique_spec`,
`emplaceUnique_spec`). An erasure changes nothing before it has found its leaf (`eraseUnique_spec`).

* `History.rejects`: what rejected calls leave and return, after every history;
* `rejected_unchanged`: both containers;
* `rejected_inserted`: an `ar_prefix_tree` of longer keys takes a stored key a second time.
-/

import CppArt.Proof.Iteration

namespace CppArt

open Table

variable {H K V : Type} {n : ℕ} {tr : Traits K V n}

/-- **Rejected calls change nothing.** A rejected insertion returns the leaf that is there. What
`emplace_unique` has constructed is deleted, so that every object is as before. -/
structure Rejects [Variant H] (tr : Traits K V n) (s : St H K V n) : Prop where
  insert : ∀ x it v, Stored s it v → tr.keyOf v = tr.keyOf x → insertUnique tr x s = .ok (it, false) s
  emplace : ∀ x it v, Stored s it v → tr.keyOf v = tr.keyOf x →
    ∃ s', emplaceUnique tr x s = .ok (it, false) s' ∧ s'.tree = s.tree ∧
      ∀ a, s'.mem.get a = s.mem.get a
  erase : ∀ k, (∀ it v, Stored s it v → tr.keyOf v ≠ tr.defaultTransform k) →
    eraseUnique tr k s = .ok 0 s

/-- **After every history** rejected calls change nothing. -/
theorem History.rejects [Variant H] [HeaderSpec H] [LawfulVariant H] {s : St H K V n}
    {m : Table Byte n V} (admits : Admits H n) (history : History tr s m) : Rejects tr s := by
  obtain ⟨e, M, own, holds, -⟩ := history.holds admits
  refine ⟨fun x it v stored key => ?_, fun x it v stored key => ?_, fun k absent => ?_⟩
  · have entry := holds.stored_iff.mp stored
    rw [key] at entry
    rcases insertUnique_spec admits holds x with ⟨it', v', entry', run⟩ | ⟨none, -⟩
    · cases entry.symm.trans entry'
      exact run
    · cases entry.symm.trans none
  · have entry := holds.stored_iff.mp stored
    rw [key] at entry
    rcases emplaceUnique_spec admits holds x with ⟨it', v', s', entry', run, same, tree, -⟩ | ⟨none, -⟩
    · cases entry.symm.trans entry'
      exact ⟨s', run, tree, same⟩
    · cases entry.symm.trans none
  · rcases eraseUnique_spec admits holds k with ⟨-, run⟩ | ⟨present, -⟩
    · exact run
    · obtain ⟨⟨it, v⟩, entry⟩ := Option.ne_none_iff_exists'.mp present
      obtain ⟨stored, key⟩ := holds.stored_of_entry entry
      exact absurd key (absent it v stored)

/-- **Rejected operations change nothing** in `ar_tree`, and in `ar_prefix_tree` for keys whose prefix
lengths fit `_prefix_length`. -/
theorem rejected_unchanged :
    (∀ {K V : Type} {n : ℕ} (tr : Traits K V n) (s : ArTree.State K V n) (m : Table Byte n V),
      History tr s m → Rejects tr s) ∧
    ∀ {K V : Type} {n : ℕ} (tr : Traits K V n) (s : ArPrefixTree.State K V n) (m : Table Byte n V),
      n ≤ 65536 → History tr s m → Rejects tr s :=
  ⟨fun _ _ _ history => history.rejects trivial, fun _ _ _ fits history => history.rejects fits⟩

/-- Two keys in either container. -/
theorem rejected_unchanged_pair :
    (∃ s, insertAll (Traits.identity 2) [⟨#v[1, 2]⟩, ⟨#v[1, 3]⟩]
        (blankState DepthHeader (Traits.identity 2)) = .ok ⟨⟩ s ∧ Rejects (Traits.identity 2) s) ∧
    ∃ s, insertAll (Traits.identity 2) [⟨#v[1, 2]⟩, ⟨#v[1, 3]⟩]
        (blankState PrefixHeader (Traits.identity 2)) = .ok ⟨⟩ s ∧ Rejects (Traits.identity 2) s := by
  have fits : 2 ≤ 65536 := by decide
  obtain ⟨s, run, history⟩ := insertAll_history (H := DepthHeader) trivial (Traits.identity 2)
    [⟨#v[1, 2]⟩, ⟨#v[1, 3]⟩]
  obtain ⟨s', run', history'⟩ := insertAll_history (H := PrefixHeader) fits (Traits.identity 2)
    [⟨#v[1, 2]⟩, ⟨#v[1, 3]⟩]
  exact ⟨⟨s, run, rejected_unchanged.1 _ s _ history⟩,
    s', run', rejected_unchanged.2 _ s' _ fits history'⟩

/-! ### Keys of more than 65536 bytes -/

namespace ArPrefixTree

variable {s s' : ArPrefixTree.State K V n} {x x' y : V} {node leaf leaf' : Addr} {l : Layout}

/-- **A misplaced key is inserted again**: its leaf is not found at byte `0`. -/
theorem Misplaced.insertUnique_inserts (misplaced : Misplaced tr s x x' node leaf leaf' l)
    (long : 65536 < n) (below : (tr.keyOf x).letter 0 < (tr.keyOf x).letter 65536)
    (less : (tr.keyOf x).letter 65536 < (tr.keyOf x').letter 65536) (same : tr.keyOf y = tr.keyOf x)
    {result : Addr × Bool} (run : insertUnique tr y s = .ok result s') : result.2 = true := by
  obtain ⟨root, ⟨dm, h, cell, here⟩, wf, count, children, first, size, stateless, -⟩ := misplaced
  obtain ⟨depth, plain⟩ : h.depth = 0 ∧ h.prefixLength = 0 := Nat.add_eq_zero_iff.mp here
  have missing : l.child ((tr.keyOf x).letter 0) = none := by
    rw [children, if_neg (below.trans less).ne, if_neg below.ne]
  have mismatch : prefixMismatchPos tr node (tr.keyOf x) s = .ok 0 s := by
    unfold prefixMismatchPos
    rw [Exec.bind_of_ok (headerOf_ok cell), plain]
    rfl
  have entered : Variant.enter tr node (tr.keyOf x) 0 s = .ok (node, 0) s := by
    show enter tr node (tr.keyOf x) 0 s = _
    unfold enter
    rw [Exec.bind_of_ok mismatch, Exec.bind_of_ok (headerOf_ok cell), plain]
    rfl
  have key : tr.defaultTransform (tr.keyOfValue y) = tr.keyOf x := same
  unfold insertUnique at run
  rw [Exec.bind_of_ok (this_apply s)] at run
  simp only [root, stateless, key] at run
  obtain ⟨steps, rfl⟩ : ∃ t, n = t + 1 := ⟨n - 1, by omega⟩
  rw [insertLoop, if_pos (Nat.succ_pos _)] at run
  simp only [] at run
  rw [Exec.bind_of_ok (isLeaf_inner cell), if_neg Bool.false_ne_true, Exec.bind_of_ok entered] at run
  simp only [] at run
  rw [Exec.bind_of_ok (chunkAt_ok (tr.keyOf x) (Nat.succ_pos steps) s),
    Exec.bind_of_ok (findChild_ok cell wf _), missing, insertLoop, if_pos (by omega)] at run
  -- what follows ends with `pure (newLeaf, true)`
  obtain ⟨room, s₁, -, run⟩ := Exec.bind_eq_ok.mp run
  obtain ⟨newLeaf, s₂, -, run⟩ := Exec.bind_eq_ok.mp run
  obtain ⟨keyByte, s₃, -, run⟩ := Exec.bind_eq_ok.mp run
  obtain ⟨-, s₄, -, run⟩ := Exec.bind_eq_ok.mp run
  obtain ⟨-, s₅, -, run⟩ := Exec.bind_eq_ok.mp run
  cases run
  rfl

end ArPrefixTree

/-- **Two keys of 65537 bytes** that differ in the last one: the first is inserted a second time. -/
theorem rejected_inserted : ∃ s : ArPrefixTree.State (Key 65537) (Key 65537) 65537,
    History (Traits.identity 65537) s (Table.ofList (Traits.identity 65537) [longKey 1, longKey 2]) ∧
      ¬ Rejects (Traits.identity 65537) s := by
  obtain ⟨s, node, it, it', l, history, misplaced⟩ := exists_long_misplaced
  have less : (longKey 1).letter 65536 < (longKey 2).letter 65536 := longKey_letter_lt (by decide)
  refine ⟨s, history, fun rejects => ?_⟩
  have run := rejects.insert (longKey 1) it (longKey 1) (misplaced.stored less) rfl
  have inserted := misplaced.insertUnique_inserts (by omega) (longKey_below (by decide)) less rfl run
  exact Bool.false_ne_true inserted

end CppArt
