/-
**How much room the nodes of a container take.**

A class of nodes is used from a number of children on, `min_size()`. What the inner nodes cost
altogether is therefore bounded by what each class costs for each child beyond the first, times the
number of values: an argument by induction over the tree, in which every subtree leaves the budget of
one child to its parent.

* `Rep.space_le`: the induction, for both containers. A node with a single child cannot pay with its
  children; it pays with the values below it, once at each depth of the key;
* `space_bound`: the bound after every history of operations.
-/

import CppArt.Proof.Accounts
import CppArt.Proof.CanonicalShape
import CppArt.Proof.PrefixShape

namespace CppArt

open Table

section

variable {H K V : Type} {n : ℕ}

/-- What the node at an address costs, when each class of inner nodes has its cost. -/
def costAt (cost : NodeType → ℕ) (mem : Memory (Cell H V)) (a : Addr) : ℕ :=
  match mem.get a with
  | some ⟨_, .inner _ l⟩ => cost l.getType
  | _ => 0

/-- **What the inner nodes of a container cost.** -/
noncomputable def space (cost : NodeType → ℕ) (s : St H K V n) : ℕ :=
  ∑ᶠ a ∈ {a | Reached s a}, costAt cost s.mem a

theorem costAt_leaf {cost : NodeType → ℕ} {mem : Memory (Cell H V)} {a : Addr} {q : Option Addr} {v : V}
    (cell : mem.get a = some ⟨q, .leaf v⟩) : costAt cost mem a = 0 := by
  simp [costAt, cell]

theorem costAt_inner {cost : NodeType → ℕ} {mem : Memory (Cell H V)} {a : Addr} {q : Option Addr} {h : H}
    {l : Layout} (cell : mem.get a = some ⟨q, .inner h l⟩) : costAt cost mem a = cost l.getType := by
  simp [costAt, cell]

end

section Owned

variable {H K V : Type} {n : ℕ} [Header H] [HeaderSpec H] {tr : Traits K V n}
  {mem : Memory (Cell H V)} {p a : Addr} {d : ℕ} {m : Contents n V} {own : Set Addr}

theorem Rep.finite (rep : Rep tr mem p a d m own) : own.Finite :=
  mem.finite_live.subset fun a inside => by
    obtain ⟨cell, here⟩ := rep.live a inside
    exact Option.ne_none_iff_exists'.mpr ⟨cell, here⟩

/-- What is owned costs what the node at the top costs and what its children own. -/
theorem Rep.Parts.cost_eq (cost : Addr → ℕ) {h : H} {l : Layout} {sub : Byte → Set Addr}
    (parts : Rep.Parts tr mem a d m h l sub) :
    ∑ᶠ x ∈ around a sub, cost x = cost a + ∑ b, ∑ᶠ x ∈ sub b, cost x := by
  have finite : ∀ b, (sub b).Finite := by
    intro b
    rcases child : l.child b with _ | c
    · rw [(parts.bare b child).2]
      exact Set.finite_empty
    · exact (parts.kid b c child).finite
  have outside : a ∉ ⋃ b, sub b := by
    intro inside
    obtain ⟨b, inside⟩ := Set.mem_iUnion.mp inside
    exact parts.apart b inside
  have union := finsum_mem_iUnion (f := cost) (fun b b' differ => parts.disjoint b b' differ) finite
  rw [around, finsum_mem_insert cost outside (Set.finite_iUnion finite), union,
    finsum_eq_sum_of_fintype]

/-- A node with a single child has two keys below it, which differ after the next byte. -/
theorem Rep.Parts.thin {h : H} {l : Layout} {sub : Byte → Set Addr}
    (parts : Rep.Parts tr mem a d m h l sub) (single : l.count < 2) :
    2 ≤ size m ∧ branch h + 1 < n := by
  obtain ⟨v, inV, w, inW, differ⟩ := HeaderSpec.broad_nontrivial parts.broad
  have same : v.letter (branch h) = w.letter (branch h) := by
    by_contra other
    have two := Layout.two_le_count parts.wf (parts.child_ne_none.mpr ⟨v, inV, rfl⟩)
      (parts.child_ne_none.mpr ⟨w, inW, rfl⟩) other
    omega
  constructor
  · exact (Set.one_lt_ncard (Set.toFinite _)).mpr ⟨v, inV, w, inW, differ⟩
  · by_contra last
    apply differ
    apply Word.eq_of_agree
    have agree := Word.agree_succ.mpr ⟨parts.shared v inV w inW, same⟩
    exact agree.mono (by omega)

/-- Every class of nodes is paid for by the children beyond the first that it must have. -/
def Worth (cost : NodeType → ℕ) (p q : ℕ) : Prop :=
  ∀ l : Layout, q * cost l.getType ≤ p * (l.minSize - 1)

/-- What one node costs: its children pay for it, and the values below it when it has one child. -/
theorem Rep.Parts.cost_le {cost : NodeType → ℕ} {u q c : ℕ} (worth : Worth cost u q) {h : H} {l : Layout}
    {sub : Byte → Set Addr} (parts : Rep.Parts tr mem a d m h l sub)
    (fair : 2 ≤ l.count ∨ q * cost .node4 ≤ c) :
    2 * (q * cost l.getType) + 2 * u + c * ((n - 1 - (branch h + 1)) * size m) ≤
      2 * (u * l.count) + c * ((n - 1 - d) * size m) := by
  have deep : d ≤ branch h := parts.depth_le
  rcases Nat.lt_or_ge l.count 2 with single | two
  · obtain ⟨several, inside⟩ := parts.thin single
    have one : l.count = 1 := by have := parts.fits.1; omega
    have type : l.getType = .node4 := by rw [parts.fits.getType, one]; rfl
    have paid : q * cost .node4 ≤ c := fair.resolve_left (by omega)
    have levels : n - 1 - (branch h + 1) + 1 ≤ n - 1 - d := by omega
    have values := Nat.mul_le_mul_left c (Nat.mul_le_mul_right (size m) levels)
    have pair : q * cost .node4 * 2 ≤ c * size m := Nat.mul_le_mul paid several
    rw [Nat.add_mul, Nat.mul_add, Nat.one_mul] at values
    rw [type, one, Nat.mul_one]
    omega
  · have levels : n - 1 - (branch h + 1) ≤ n - 1 - d := by omega
    have values := Nat.mul_le_mul_left c (Nat.mul_le_mul_right (size m) levels)
    have paid : q * cost l.getType ≤ u * (l.count - 1) :=
      (worth l).trans (Nat.mul_le_mul_left u (Nat.sub_le_sub_right (parts.fits.minSize_le two) 1))
    have split : u * l.count = u * (l.count - 1) + u := by
      rw [← Nat.mul_succ]
      congr 1
      omega
    omega

/-- **What the nodes below a node cost**, by induction over the tree. -/
theorem Rep.space_le {cost : NodeType → ℕ} {u q c : ℕ} (worth : Worth cost u q)
    (fair : (∀ r (S : Set (Key n)), Broad H r S → ∃ v ∈ S, ∃ w ∈ S, v.letter r ≠ w.letter r) ∨
      q * cost .node4 ≤ c)
    (rep : Rep tr mem p a d m own) :
    2 * (q * ∑ᶠ x ∈ own, costAt cost mem x) + 2 * u ≤
      2 * (u * size m) + c * ((n - 1 - d) * size m) := by
  induction rep with
  | @leaf p a d v cell le =>
      rw [finsum_mem_singleton, costAt_leaf cell, size, dom_single, Set.ncard_singleton]
      omega
  | @inner p a d m h l sub cell wf fits bound shared describes broad bare kid apart disjoint ih =>
      have parts : Rep.Parts tr mem a d m h l sub :=
        ⟨wf, fits, bound, shared, describes, broad, bare, kid, apart, disjoint⟩
      have children : ∀ b, 2 * (q * ∑ᶠ x ∈ sub b, costAt cost mem x) +
          (if l.child b = none then 0 else 2 * u) ≤ 2 * (u * size (fiber m (branch h) b)) +
            c * ((n - 1 - (branch h + 1)) * size (fiber m (branch h) b)) := by
        intro b
        rcases slot : l.child b with _ | child
        · rw [(bare b slot).2, finsum_mem_empty]
          simp
        · rw [if_neg (Option.some_ne_none child)]
          exact ih b child slot
      have count : ∑ b : Byte, (if l.child b = none then 0 else 2 * u) = 2 * (u * l.count) := by
        rw [Layout.count_eq wf, Finset.card_filter, Finset.mul_sum, Finset.mul_sum]
        exact Finset.sum_congr rfl fun b _ => by simp [ite_not]
      have total := Finset.sum_le_sum fun b (_ : b ∈ Finset.univ) => children b
      rw [Finset.sum_add_distrib, Finset.sum_add_distrib, count, ← Finset.mul_sum, ← Finset.mul_sum,
        ← Finset.mul_sum, ← Finset.mul_sum, ← Finset.mul_sum, ← Finset.mul_sum, sum_size_fiber] at total
      have top := parts.cost_le worth (c := c) (fair.imp_left fun wide => by
        obtain ⟨v, inV, w, inW, differ⟩ := wide _ _ broad
        exact Layout.two_le_count wf (parts.child_ne_none.mpr ⟨v, inV, rfl⟩)
          (parts.child_ne_none.mpr ⟨w, inW, rfl⟩) differ)
      rw [parts.cost_eq, costAt_inner cell, Nat.mul_add]
      omega

end Owned

section Container

variable {H K V : Type} {n : ℕ} [Variant H] [HeaderSpec H] {tr : Traits K V n} {s : St H K V n} {e : Addr}
  {M : Contents n V} {own : Set Addr}

/-- **What the nodes of a container cost.** -/
theorem Holds.space_le {cost : NodeType → ℕ} {u q c : ℕ} (worth : Worth cost u q)
    (fair : (∀ r (S : Set (Key n)), Broad H r S → ∃ v ∈ S, ∃ w ∈ S, v.letter r ≠ w.letter r) ∨
      q * cost .node4 ≤ c)
    (holds : Holds tr s e M own) :
    2 * (q * space cost s) ≤ 2 * (u * (s.tree.count - 1)) + c * ((n - 1) * s.tree.count) := by
  rcases root : s.tree.root with _ | r
  · have none : {a | Reached s a} = ∅ := by
      refine Set.eq_empty_of_forall_notMem fun a reached => ?_
      obtain ⟨r, root', -⟩ := reached
      rw [root] at root'
      cases root'
    rw [space, none, finsum_mem_empty]
    simp
  · have rep := holds.rest root
    have nodes : {a | Reached s a} = own \ {s.tree.dummyNode, e} := by
      obtain ⟨all, apart⟩ := holds.own_eq
      rw [all, Set.union_sdiff_left, sdiff_eq_left.mpr apart.symm]
    have bound := rep.space_le worth fair
    rw [← nodes, ← holds.count, Nat.sub_zero] at bound
    have split : u * (s.tree.count - 1) = u * s.tree.count - u := Nat.mul_sub_one u _
    rw [split, space]
    omega

end Container

/-- **The space of the containers.** When a class of nodes costs at most `p / q` for each child beyond
the first that it must have, the inner nodes of an `ar_prefix_tree` cost less than `p / q` for each
value; those of an `ar_tree` cost half a smallest node more for each value and byte of the key. -/
theorem space_bound {K V : Type} {n : ℕ} (tr : Traits K V n) {cost : NodeType → ℕ} {p q : ℕ}
    (worth : Worth cost p q) :
    (∀ (s : ArTree.State K V n) (m : Table Byte n V), History tr s m →
      2 * (q * space cost s) ≤
        2 * (p * (s.tree.count - 1)) + q * cost .node4 * ((n - 1) * s.tree.count)) ∧
    (n ≤ 65536 → ∀ (s : ArPrefixTree.State K V n) (m : Table Byte n V), History tr s m →
      q * space cost s ≤ p * (s.tree.count - 1)) := by
  constructor
  · intro s m history
    obtain ⟨e, M, own, holds, rfl⟩ := history.holds trivial
    exact holds.space_le worth (.inr le_rfl)
  · intro fits s m history
    obtain ⟨e, M, own, holds, rfl⟩ := history.holds fits
    have bound := holds.space_le (c := 0) worth (.inl fun r S broad => broad)
    rw [Nat.zero_mul, Nat.add_zero] at bound
    exact Nat.le_of_mul_le_mul_left bound Nat.two_pos

/-- The arrays of the four classes on a machine with pointers of eight bytes. -/
def arrayBytes : NodeType → ℕ
  | .node4 => 4 + 4 * 8
  | .node16 => 16 + 16 * 8
  | .node48 => 256 + 48 * 8
  | .node256 => 256 * 8
  | _ => 0

theorem worth_arrayBytes : Worth arrayBytes 128 3 := by
  intro l
  cases l <;> simp [Layout.getType, Layout.minSize, arrayBytes]

/-- Two keys in either container. -/
theorem space_bound_pair :
    (∃ s, insertAll (Traits.identity 3) [⟨#v[1, 2, 3]⟩, ⟨#v[1, 2, 4]⟩]
        (blankState DepthHeader (Traits.identity 3)) = .ok ⟨⟩ s ∧
      2 * (3 * space arrayBytes s) ≤
        2 * (128 * (s.tree.count - 1)) + 3 * arrayBytes .node4 * ((3 - 1) * s.tree.count)) ∧
    ∃ s, insertAll (Traits.identity 3) [⟨#v[1, 2, 3]⟩, ⟨#v[1, 2, 4]⟩]
        (blankState PrefixHeader (Traits.identity 3)) = .ok ⟨⟩ s ∧
      3 * space arrayBytes s ≤ 128 * (s.tree.count - 1) := by
  obtain ⟨s, run, history⟩ := insertAll_history (H := DepthHeader) trivial (Traits.identity 3)
    [⟨#v[1, 2, 3]⟩, ⟨#v[1, 2, 4]⟩]
  obtain ⟨s', run', history'⟩ := insertAll_history (H := PrefixHeader) (by decide : 3 ≤ 65536)
    (Traits.identity 3) [⟨#v[1, 2, 3]⟩, ⟨#v[1, 2, 4]⟩]
  exact ⟨⟨s, run, (space_bound _ worth_arrayBytes).1 s _ history⟩,
    s', run', (space_bound _ worth_arrayBytes).2 (by decide) s' _ history'⟩

end CppArt
