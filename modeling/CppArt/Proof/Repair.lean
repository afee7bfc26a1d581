/-
**A node that has lost a leaf.**

`Vacated` is the state in which `fix_after_erase` is called: the leaf of the key has been deleted, the
table still has its entry, and the node above it has one child less than its layout was used for. At
least one other child is left (`Vacated.exists_left`).

* `Vacated.close`: if the node stays, the tree without the key is represented;
* `Vacated.shrinkInto_spec`: a node with too few children gives way to one of the next smaller type;
* `Vacated.shrinkToLeaf_spec`: a `_Node_4` with one leaf left gives way to the leaf.
-/

import CppArt.Proof.Container
import CppArt.Proof.Restructure

namespace CppArt

open Table

variable {H K V : Type} {n : ℕ}

/-- Disjointness from what hangs beside a path survives a new address for the node on it. -/
theorem around_fresh {a g : Addr} {sub : Byte → Set Addr} {own : Set Addr}
    (clear : Disjoint own (around a sub)) (older : ∀ x ∈ own, x < g) : Disjoint own (around g sub) := by
  refine Set.disjoint_left.mpr fun x inside near => ?_
  rcases near with rfl | beside
  · exact absurd (older x inside) (lt_irrefl _)
  · exact Set.disjoint_left.mp clear inside (Or.inr beside)

variable [Header H] [HeaderSpec H] {tr : Traits K V n}

/-- **The node `q` has lost the leaf of `k`**; the table `M` still has its entry. -/
structure Vacated (tr : Traits K V n) (s : St H K V n) (e : Addr) (k : Key n) (M : Contents n V)
    (p q : Addr) (d : ℕ) (h : H) (l : Layout) (sub : Byte → Set Addr) (own : Set Addr) : Prop where
  outer : Ctx tr s.mem s.tree.dummyNode e s.tree.root k M (dom M) p q d own
  node : PathNode tr s.mem k M p q d h l sub
  missing : l.child (k.letter (branch h)) = none
  fits : l.Fits (l.count + 1)
  alone : ∀ v ∈ dom (under M k (branch h + 1)), v = k
  broad : Broad H (branch h) (dom (under M k d))
  clear : Disjoint own (around q sub)
  calm : s.mem.failAt = none

/-- A node on the path has a stored key below each of its other children. -/
theorem PathNode.exists_key {mem : Memory (Cell H V)} {k : Key n} {M : Contents n V} {p a c : Addr}
    {d : ℕ} {h : H} {l : Layout} {sub : Byte → Set Addr} {b : Byte}
    (node : PathNode tr mem k M p a d h l sub) (other : b ≠ k.letter (branch h))
    (child : l.child b = some c) :
    ∃ u ∈ dom (drop M k), Word.Agree (branch h) k u ∧ u.letter (branch h) = b := by
  obtain ⟨u, inside⟩ := (node.kid b other c child).nonempty
  obtain ⟨letter, below⟩ := mem_dom_fiber.mp inside
  refine ⟨u, ?_, node.shared u below, letter⟩
  rw [dom_drop]
  refine ⟨(mem_dom_under.mp below).2, ?_⟩
  rintro rfl
  exact other letter.symm

/-- The addresses of a node with one child and of what hangs beside the path there. -/
theorem PathNode.around_eq {mem : Memory (Cell H V)} {k : Key n} {M : Contents n V} {p a c : Addr}
    {d : ℕ} {h : H} {l : Layout} {sub : Byte → Set Addr} {b : Byte}
    (node : PathNode tr mem k M p a d h l sub) (child : l.child b = some c) (one : l.count ≤ 1) :
    around a sub = insert a (sub b) := by
  have others : ∀ b', b' ≠ b → sub b' = ∅ := by
    intro b' differ
    by_cases here : b' = k.letter (branch h)
    · rw [here, node.hole]
    · rcases slot : l.child b' with _ | c'
      · exact (node.bare b' here slot).2
      · refine absurd (Layout.eq_of_count_one node.wf (le_antisymm one ?_)
          (Layout.mem_bytes_of_child slot) (Layout.mem_bytes_of_child child)) differ
        exact Layout.count_pos_of_child node.wf child
  have all : (⋃ b', sub b') = sub b := by
    refine Set.Subset.antisymm (Set.iUnion_subset fun b' => ?_) (Set.subset_iUnion sub b)
    by_cases same : b' = b
    · rw [same]
    · rw [others b' same]
      exact Set.empty_subset _
  show insert a (⋃ b', sub b') = _
  rw [all]

namespace Vacated

variable {s : St H K V n} {e : Addr} {k : Key n} {M : Contents n V} {p q : Addr} {d : ℕ} {h : H}
  {l : Layout} {sub : Byte → Set Addr} {own : Set Addr}
  (vacated : Vacated tr s e k M p q d h l sub own)

include vacated

theorem off : q ∉ own := fun inside =>
  Set.disjoint_left.mp vacated.clear inside (Set.mem_insert q _)

/-- Another child is left. -/
theorem exists_left : ∃ b c, b ≠ k.letter (branch h) ∧ l.child b = some c := by
  obtain ⟨u, inside, notK⟩ := Set.Nontrivial.exists_ne (HeaderSpec.broad_nontrivial vacated.broad) k
  have other : u.letter (branch h) ≠ k.letter (branch h) := fun same => notK (vacated.alone u
    (mem_dom_under.mpr ⟨Word.agree_succ.mpr ⟨vacated.node.shared u inside, same.symm⟩,
      (mem_dom_under.mp inside).2⟩))
  rcases slot : l.child (u.letter (branch h)) with _ | c
  · have below : u ∈ dom (fiber (under M k d) (branch h) (u.letter (branch h))) :=
      mem_dom_fiber.mpr ⟨rfl, inside⟩
    rw [(vacated.node.bare _ other slot).1, dom_empty] at below
    exact below.elim
  · exact ⟨_, c, other, slot⟩

theorem count_pos : 0 < l.count := by
  obtain ⟨b, c, other, child⟩ := vacated.exists_left
  exact Layout.count_pos_of_child vacated.node.wf child

/-- With one child left, the rest of the table is what is below it. -/
theorem under_drop_eq {b : Byte} {c : Addr} (child : l.child b = some c) (one : l.count = 1) :
    under (drop M k) k d = fiber (under M k d) (branch h) b := by
  have other : b ≠ k.letter (branch h) := by
    rintro rfl
    rw [vacated.missing] at child
    cases child
  rw [under_drop]
  funext u
  by_cases same : u = k
  · rw [same, drop_self, fiber, if_neg other.symm]
  · rw [drop_of_ne _ same]
    by_cases letter : u.letter (branch h) = b
    · rw [fiber_of_letter letter]
    · rw [fiber, if_neg letter]
      by_contra present
      have inside : u ∈ dom (under M k d) := present
      by_cases onPath : u.letter (branch h) = k.letter (branch h)
      · exact same (vacated.alone u (mem_dom_under.mpr ⟨Word.agree_succ.mpr
          ⟨vacated.node.shared u inside, onPath.symm⟩, (mem_dom_under.mp inside).2⟩))
      · have below : u ∈ dom (fiber (under M k d) (branch h) (u.letter (branch h))) :=
          mem_dom_fiber.mpr ⟨rfl, inside⟩
        rcases slot : l.child (u.letter (branch h)) with _ | c'
        · rw [(vacated.node.bare _ onPath slot).1, dom_empty] at below
          exact below
        · exact letter (Layout.eq_of_count_one vacated.node.wf one (Layout.mem_bytes_of_child slot)
            (Layout.mem_bytes_of_child child))

omit vacated in
/-- **The node stays**, without a child for the key. -/
theorem close {mem : Memory (Cell H V)} {dm : Addr} {root : Option Addr}
    (outer : Ctx tr mem dm e root k M (dom M) p q d own) (node : PathNode tr mem k M p q d h l sub)
    (missing : l.child (k.letter (branch h)) = none) (fits : l.Fits l.count)
    (alone : ∀ v ∈ dom (under M k (branch h + 1)), v = k)
    (broad : Broad H (branch h) {v | Word.Agree d k v ∧ v ∈ dom (drop M k)})
    (needed : ∀ r d', d' ≤ r → r < d → Broad H r {v | Word.Agree d' k v ∧ v ∈ dom M} →
      Broad H r {v | Word.Agree d' k v ∧ v ∈ dom (drop M k)})
    (clear : Disjoint own (around q sub)) :
    Whole tr mem dm e root (drop M k) (own ∪ around q sub) := by
  have node' : PathNode tr mem k (drop M k) p q d h l sub := node.update fun v apart => by
    refine drop_of_ne M ?_
    rintro rfl
    exact apart (Word.Agree.refl _ v)
  have vacant : under (drop M k) k (branch h + 1) = Table.empty := by
    rw [under_drop, eq_empty_iff, dom_drop]
    exact Set.eq_empty_of_forall_notMem fun v inside => inside.2 (alone v inside.1)
  refine outer.closeDropped needed (node'.seal missing vacant fits ?_) clear
  rwa [dom_under]

/-- **A node with too few children gives way** to one of the next smaller type. -/
theorem shrinkInto_spec (small : l.count < l.minSize) (notFirst : l.getType ≠ .node4) :
    ∃ l' mem' s', shrink q s = .ok (s.mem.next, true) (s.withMem mem') ∧
      mem'.get s.mem.next = some ⟨some p, .inner h l'⟩ ∧
      updateChildPtr p s.mem.next k (s.withMem mem') = .ok ⟨⟩ s' ∧
      Ctx tr s'.mem s'.tree.dummyNode e s'.tree.root k M (dom M) p s.mem.next d own ∧
      PathNode tr s'.mem k M p s.mem.next d h l' sub ∧ l'.Fits l'.count ∧ l'.count = l.count ∧
      (∀ b, l'.child b = l.child b) ∧ Disjoint own (around s.mem.next sub) ∧
      s.Frame s' (own ∪ around q sub) ∧
      Memory.Renews s.mem s'.mem (own ∪ around q sub) (own ∪ around s.mem.next sub) := by
  have minimal : l.count + 1 = l.minSize := le_antisymm small (vacated.fits.2.2 notFirst)
  obtain ⟨l', mem', run, node', fits', count', children, keeps, renews⟩ :=
    shrink_spec vacated.node vacated.missing minimal notFirst vacated.calm
  have older : ∀ y ∈ own, y < s.mem.next := fun y inside => vacated.outer.lt_next inside
  have outer' := vacated.outer.frame (keeps.same vacated.clear.symm older)
  obtain ⟨s', redirected, outer'', frame, next⟩ :=
    updateChildPtr_spec (s := s.withMem mem') outer' (Word.Agree.refl d k) s.mem.next
  have clear' : Disjoint own (around s.mem.next sub) := around_fresh vacated.clear older
  refine ⟨l', mem', s', run, node'.cell, redirected, outer'', ?_, fits', count', children, clear', ?_, ?_⟩
  · refine node'.frame (frame.keeps.same (clear'.mono_left outer'.links_subset) fun y inside => ?_)
    obtain ⟨cell, here⟩ := node'.live y inside
    exact Memory.lt_next_of_get here
  · have start : s.Frame (s.withMem mem') (own ∪ around q sub) :=
      ⟨keeps.mono Set.subset_union_right, rfl, rfl, rfl⟩
    exact start.trans (frame.mono outer'.links_subset) fun y inside => .inl (Or.inl inside)
  · exact (renews.extend own).trans (Memory.Renews.of_next _ next)
      (frame.keeps.mono (outer'.links_subset.trans Set.subset_union_left)) keeps.next_le

/-- **A `_Node_4` with one leaf left gives way to the leaf.** -/
theorem shrinkToLeaf_spec {b : Byte} {c : Addr} {v : V} (first : l.getType = .node4)
    (one : l.count = 1) (child : l.child b = some c) (inside : c ∈ sub b)
    (leaf : s.mem.get c = some ⟨some q, .leaf v⟩) :
    ∃ mem', shrink q s = .ok (c, true) (s.withMem mem') ∧
      Ctx tr mem' s.tree.dummyNode e s.tree.root k M (dom M) p q d own ∧
      mem'.get c = some ⟨some p, .leaf v⟩ ∧ c ∉ own ∧
      s.Frame (s.withMem mem') (own ∪ around q sub) ∧ mem'.get q = none ∧
      mem'.next = s.mem.next := by
  have near : c ∈ around q sub := mem_around_of_sub inside
  have off : c ∉ own := fun outside => Set.disjoint_left.mp vacated.clear outside near
  have apart : c ≠ q := fun same => vacated.node.apart b (same ▸ inside)
  let mem₁ := s.mem.set c ⟨some p, .leaf v⟩
  have cell₁ : mem₁.get q = some ⟨some p, .inner h l⟩ :=
    (Memory.set_get_of_ne _ _ apart.symm).trans vacated.node.cell
  refine ⟨mem₁.free q, shrink_leaf vacated.node.wf vacated.node.cell first child one leaf cell₁,
    vacated.outer.frame fun y outside => ?_, ?_, off, ⟨?_, rfl, rfl, rfl⟩, Memory.free_get_self _ _,
    rfl⟩
  · have notQ : y ≠ q := fun same => vacated.off (same ▸ outside)
    have notC : y ≠ c := fun same => off (same ▸ outside)
    exact (Memory.free_get_of_ne _ notQ).trans (Memory.set_get_of_ne _ _ notC)
  · exact (Memory.free_get_of_ne _ apart).trans (Memory.set_get_self leaf _)
  · exact (Memory.keeps_set _ _ (Or.inr near)).trans (Memory.keeps_free _
      (Or.inr (Set.mem_insert q _))) fun y inside => .inl inside

/-- What the only leaf left leaves behind. -/
theorem freed_leaf {mem' : Memory (Cell H V)} {b : Byte} {c : Addr} {v : V} (one : l.count = 1)
    (child : l.child b = some c) (inside : c ∈ sub b) (leaf : s.mem.get c = some ⟨some q, .leaf v⟩)
    (gone : mem'.get q = none) (next : mem'.next = s.mem.next) :
    Memory.Renews s.mem mem' (own ∪ around q sub) (own ∪ {c}) := by
  have other : b ≠ k.letter (branch h) := by
    rintro rfl
    rw [vacated.missing] at child
    cases child
  have alone : sub b = {c} := by
    rcases (vacated.node.kid b other c child).inspect with ⟨-, -, -, same⟩ | ⟨h', l', inner, -⟩
    · exact same
    · rw [leaf] at inner
      cases inner
  have within : own ∪ {c} ⊆ own ∪ around q sub := Set.union_subset_union_right _
    (Set.singleton_subset_iff.mpr (mem_around_of_sub inside))
  refine (Memory.Renews.of_next _ next).drop within fun y before outside => ?_
  rw [vacated.node.around_eq child one.le, alone] at before
  rcases before with old | rfl | rfl
  · exact absurd (Or.inl old) outside
  · exact gone
  · exact absurd (Or.inr rfl) outside

end Vacated

end CppArt
