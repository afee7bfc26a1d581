/-
**A container and its iterators.**

`Holds tr s e M own`: the container `*this` represents the table `M`, its size is the number of entries,
its end leaf is `e`, and it owns the addresses `own`. An iterator is the address of a leaf.

* `beginIt_spec`, `advance_spec`: `begin` is the leaf of the first key, `++` and `--` lead to the leaf
  of the next key of their direction, and `++` from the last key to the end leaf;
* `decrement_end`: `--` from the end leads to the leaf of the last key;
* `Designates`: the iterator of the first entry of a set of keys, `end` where there is none;
* `Holds.entry`: the leaf of a stored key is live and has its value.
-/

import CppArt.Proof.Search

namespace CppArt

open Table

variable {H K V : Type} {n : ℕ}

/-- **What a call changes**: the nodes of its container, which get new addresses at most. -/
structure Moves (s s' : St H K V n) (own own' : Set Addr) : Prop where
  keeps : Memory.Keeps s.mem s'.mem own
  renews : Memory.Renews s.mem s'.mem own own'
  dummyNode : s'.tree.dummyNode = s.tree.dummyNode

theorem Moves.refl (s : St H K V n) (own : Set Addr) : Moves s s own own :=
  ⟨Memory.Keeps.refl _ _, Memory.Renews.refl _ _, rfl⟩

theorem Moves.trans {s s' s'' : St H K V n} {own own' own'' : Set Addr} (one : Moves s s' own own')
    (two : Moves s' s'' own' own'') : Moves s s'' own own'' :=
  ⟨one.keeps.trans two.keeps one.renews.within,
    one.renews.trans two.renews two.keeps one.keeps.next_le, two.dummyNode.trans one.dummyNode⟩

variable [Header H] [HeaderSpec H] {tr : Traits K V n} {M : Contents n V}

/-- **The container represents a table**, with its end leaf `e`, and owns the addresses `own`. -/
structure Holds (tr : Traits K V n) (s : St H K V n) (e : Addr) (M : Contents n V)
    (own : Set Addr) : Prop where
  whole : Whole tr s.mem s.tree.dummyNode e s.tree.root M own
  count : s.tree.count = size M
  stateless : s.tree.keyTransform = tr.defaultTransform
  calm : s.mem.failAt = none

namespace Holds

variable {s : St H K V n} {e : Addr} {own : Set Addr}

/-- The path of any key begins at the sentinel. -/
theorem path {r : Addr} (holds : Holds tr s e M own) (root : s.tree.root = some r) (k : Key n) :
    ∃ rest, Ctx tr s.mem s.tree.dummyNode e s.tree.root k M (dom M) s.tree.dummyNode r 0
        {s.tree.dummyNode, e} ∧
      Rep tr s.mem s.tree.dummyNode r 0 (under M k 0) rest ∧ Disjoint {s.tree.dummyNode, e} rest ∧
      own = {s.tree.dummyNode, e} ∪ rest := by
  have whole := holds.whole
  rw [root] at whole ⊢
  exact whole.path k

theorem key_eq (holds : Holds tr s e M own) (x : V) :
    s.tree.keyTransform (tr.keyOfValue x) = tr.keyOf x := by
  rw [holds.stateless]
  rfl

theorem frame (holds : Holds tr s e M own) {mem' : Memory (Cell H V)}
    (same : Memory.Same s.mem mem' own) (failAt : mem'.failAt = s.mem.failAt) :
    Holds tr (s.withMem mem') e M own where
  whole := holds.whole.frame same
  count := holds.count
  stateless := holds.stateless
  calm := failAt.trans holds.calm

theorem sentinel (holds : Holds tr s e M own) :
    (∃ link, s.mem.get s.tree.dummyNode = some ⟨some s.tree.dummyNode, .dummy link e⟩) ∧
      s.mem.get e = some ⟨some s.tree.dummyNode, .baseLeaf⟩ := by
  obtain ⟨whole, -, -, -⟩ := holds
  generalize s.tree.root = root at whole
  cases whole with
  | empty sentinel endLeaf => exact ⟨⟨_, sentinel⟩, endLeaf⟩
  | tree sentinel endLeaf => exact ⟨⟨_, sentinel⟩, endLeaf⟩

/-- A container without a root is empty. -/
theorem eq_empty (holds : Holds tr s e M own) (root : s.tree.root = none) : M = Table.empty := by
  have whole := holds.whole
  rw [root] at whole
  exact whole.of_none.1

/-- **The leaf of a stored key.** -/
theorem entry {k : Key n} {it : Addr} {v : V} (holds : Holds tr s e M own)
    (stored : M k = some (it, v)) :
    tr.keyOf v = k ∧ it ∈ own ∧ it ≠ e ∧ ∃ q, s.mem.get it = some ⟨some q, .leaf v⟩ := by
  have endLeaf := holds.sentinel.2
  have differ : ∀ q, s.mem.get it = some ⟨some q, .leaf v⟩ → it ≠ e := by
    rintro q cell rfl
    rw [endLeaf] at cell
    cases cell
  rcases root : s.tree.root with _ | r
  · rw [holds.eq_empty root] at stored
    cases stored
  · obtain ⟨rest, ctx, rep, clear, rfl⟩ := holds.path root k
    rw [under_zero] at rep
    obtain ⟨key, inside, q, cell⟩ := rep.leaf_cell stored
    exact ⟨key, Or.inr inside, differ q cell, q, cell⟩

/-- A leaf belongs to one key. -/
theorem key_unique {k k' : Key n} {it : Addr} {v v' : V} (holds : Holds tr s e M own)
    (stored : M k = some (it, v)) (stored' : M k' = some (it, v')) : k = k' ∧ v = v' := by
  obtain ⟨key, -, -, q, cell⟩ := holds.entry stored
  obtain ⟨key', -, -, q', cell'⟩ := holds.entry stored'
  rw [cell, Option.some.injEq, Cell.mk.injEq, Body.leaf.injEq] at cell'
  exact ⟨by rw [← key, ← key', cell'.2], cell'.2⟩

end Holds

/-! ### Iterators -/

/-- **An iterator designates the first entry of a set of keys**; where there is none, it is the end. -/
def Designates (M : Contents n V) (e : Addr) (keys : Set (Key n)) (it : Addr) : Prop :=
  (∃ w v, M w = some (it, v) ∧ Dir.up.IsFirst keys w) ∨ (keys = ∅ ∧ it = e)

theorem Designates.unique {e it it' : Addr} {keys : Set (Key n)} (one : Designates M e keys it)
    (two : Designates M e keys it') : it = it' := by
  rcases one with ⟨w, v, entry, first⟩ | ⟨none, rfl⟩
  · rcases two with ⟨w', v', entry', first'⟩ | ⟨none, -⟩
    · rw [first.unique first', entry', Option.some.injEq, Prod.mk.injEq] at entry
      exact entry.1.symm
    · exact absurd first.1 (none ▸ Set.notMem_empty w)
  · rcases two with ⟨w', v', entry', first'⟩ | ⟨-, rfl⟩
    · exact absurd first'.1 (none ▸ Set.notMem_empty w')
    · rfl

/-- The stored keys beyond a key. -/
def above (M : Contents n V) (k : Key n) : Set (Key n) := {u | u ∈ dom M ∧ k < u}

section Iterators

variable {s : St H K V n} {e : Addr} {own : Set Addr}

/-- **`end`.** -/
theorem endIt_spec (holds : Holds tr s e M own) : endIt s = .ok e s := by
  obtain ⟨link, sentinel⟩ := holds.sentinel.1
  unfold endIt
  rw [Exec.bind_of_ok (this_apply s), Exec.bind_of_ok (load_ok sentinel)]
  rfl

/-- **`begin`**: the leaf of the least key, or the end. -/
theorem beginIt_spec (holds : Holds tr s e M own) :
    (M = Table.empty ∧ beginIt s = .ok e s) ∨
      ∃ w it v, beginIt s = .ok it s ∧ M w = some (it, v) ∧ Dir.up.IsFirst (dom M) w := by
  unfold beginIt
  rw [Exec.bind_of_ok (this_apply s)]
  rcases root : s.tree.root with _ | r
  · exact .inl ⟨holds.eq_empty root, endIt_spec holds⟩
  · obtain ⟨rest, ctx, rep, clear, rfl⟩ := holds.path root (tr.defaultTransform tr.defaultKey)
    rw [under_zero] at rep
    exact .inr (extreme_spec rep .up)

omit [HeaderSpec H] in
/-- From the sentinel, `successor` is the end leaf for every key. -/
theorem neighbour_sentinel {dm : Addr} {link : Option Addr} (k : Key n)
    (sentinel : s.mem.get dm = some ⟨some dm, .dummy link e⟩) : neighbour .up k dm s = .ok e s := by
  show neighbourFrom .up k (n + 2) dm s = .ok e s
  rw [neighbourFrom, Exec.bind_of_ok (load_ok sentinel)]
  rfl

/-- **`++` and `--`** lead to the leaf of the next key of their direction. -/
theorem advance_spec {k : Key n} {it : Addr} {v : V} (holds : Holds tr s e M own)
    (stored : M k = some (it, v)) (dir : Dir) :
    (∃ w it' v', advance tr dir it s = .ok it' s ∧ M w = some (it', v') ∧
        dir.IsFirst {u | u ∈ dom M ∧ dir.before k u} w) ∨
      ((∀ u ∈ dom M, ¬ dir.before k u) ∧ (dir = .up → advance tr dir it s = .ok e s)) := by
  rcases root : s.tree.root with _ | r
  · rw [holds.eq_empty root] at stored
    cases stored
  · obtain ⟨rest, ctx, rep, clear, owned⟩ := holds.path root k
    obtain ⟨q, d, own', ctx', cell, alone, -, -⟩ :=
      Ctx.locate stored (n + 1) (by omega) ctx rep clear
    have only : ∀ u ∈ dom M, Word.Agree d k u → u = k := by
      intro u member agree
      have inside : u ∈ dom (under M k d) := mem_dom_under.mpr ⟨agree, member⟩
      rw [alone, dom_single] at inside
      exact inside
    have set_eq : beyond dir M k d = {u | u ∈ dom M ∧ dir.before k u} := by
      ext u
      refine ⟨fun inside => ⟨inside.1, inside.2.2⟩, fun inside => ⟨inside.1, fun agree => ?_, inside.2⟩⟩
      exact Dir.ne_of_before inside.2 (only u inside.1 agree).symm
    unfold advance
    rw [Exec.bind_of_ok (parentOf_ok cell)]
    simp only [deref_some, Exec.pure_bind_apply]
    by_cases top : q = s.tree.dummyNode
    · have sentinel := ctx'.sentinel.2.1
      have everything : beyond dir M k d = ∅ := by
        rw [ctx'.depth_eq_zero top]
        ext u
        simp [beyond]
      right
      refine ⟨fun u member side => ?_, ?_⟩
      · have inside : u ∈ beyond dir M k d := by rw [set_eq]; exact ⟨member, side⟩
        rw [everything] at inside
        exact inside
      · rintro rfl
        rw [top, Exec.bind_of_ok (getType_dummy sentinel), if_pos rfl]
        exact neighbour_sentinel _ sentinel
    · have climb := neighbour_spec ctx' dir
      cases ctx' with
      | top => exact absurd rfl top
      | step outer node slot fits broad clear' =>
          rw [Exec.bind_of_ok (getType_inner node.cell), if_neg (layout_getType_ne _).2,
            Exec.bind_of_ok (leafValue_ok cell)]
          have key : tr.defaultTransform (tr.keyOfValue v) = k := (holds.entry stored).1
          rw [key]
          rw [set_eq] at climb
          rcases climb with found | ⟨nothing, upwards⟩
          · exact .inl found
          · refine .inr ⟨fun u member side => ?_, upwards⟩
            have inside : u ∈ {u | u ∈ dom M ∧ dir.before k u} := ⟨member, side⟩
            rw [nothing] at inside
            exact inside

/-- **`++`** from the leaf of a stored key: the leaf of the next key, or the end. -/
theorem increment_spec {k : Key n} {it : Addr} {v : V} (holds : Holds tr s e M own)
    (stored : M k = some (it, v)) :
    ∃ result, increment tr it s = .ok result s ∧ Designates M e (above M k) result := by
  rcases advance_spec holds stored .up with ⟨w, it', v', run, entry, first⟩ | ⟨none, run⟩
  · exact ⟨it', run, .inl ⟨w, v', entry, first⟩⟩
  · refine ⟨e, run rfl, .inr ⟨Set.eq_empty_of_forall_notMem fun u inside => ?_, rfl⟩⟩
    exact none u inside.1 inside.2

/-- **`--` from the end** leads to the leaf of the greatest key. -/
theorem decrement_end (holds : Holds tr s e M own) (nonempty : M ≠ Table.empty) :
    ∃ w it v, decrement tr e s = .ok it s ∧ M w = some (it, v) ∧ Dir.down.IsFirst (dom M) w := by
  rcases root : s.tree.root with _ | r
  · exact absurd (holds.eq_empty root) nonempty
  · obtain ⟨rest, ctx, rep, clear, owned⟩ := holds.path root (tr.defaultTransform tr.defaultKey)
    obtain ⟨-, sentinel, endLeaf, -, -⟩ := ctx.sentinel
    rw [root] at sentinel
    rw [under_zero] at rep
    unfold decrement advance
    rw [Exec.bind_of_ok (parentOf_ok endLeaf)]
    simp only [deref_some, Exec.pure_bind_apply]
    rw [Exec.bind_of_ok (getType_dummy sentinel), if_pos rfl]
    have unfolded : neighbour .down (tr.defaultTransform tr.defaultKey) s.tree.dummyNode s
        = extreme .down r s := by
      show neighbourFrom .down _ (n + 2) _ s = _
      rw [neighbourFrom, Exec.bind_of_ok (load_ok sentinel)]
    rw [unfolded]
    exact extreme_spec rep .down

end Iterators

end CppArt
