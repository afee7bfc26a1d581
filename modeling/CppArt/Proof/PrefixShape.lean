/-
**The shape of an `ar_prefix_tree`.**

`Compressed` is the representation invariant as a reader of the header states it: every inner node has
two or more children, depths and prefix lengths add up, the stored bytes are those of the keys below,
and the type of a node is the one for its number of children.

* `Rep.ncard_inner`: there are fewer inner nodes than leaves, by induction over the tree;
* `ArPrefixTree.compressed_shape`: the invariant after every history, and the independence of the
  shape of the history.
-/

import CppArt.Proof.Refinement
import CppArt.Proof.Shape

namespace CppArt

open Table

variable {K V : Type} {n : ℕ} {tr : Traits K V n}

/-- **The representation invariant of `ar_prefix_tree`.** -/
structure ArPrefixTree.Compressed (tr : Traits K V n) (s : ArPrefixTree.State K V n) : Prop where
  two : ∀ a h l, IsInner s a h l → 2 ≤ l.count ∧ l.count = l.branchBytes.ncard
  few : {a | ∃ h l, IsInner s a h l}.Finite ∧ {a | ∃ h l, IsInner s a h l}.ncard ≤ s.tree.count - 1
  rootDepth : ∀ a p h l, s.tree.root = some a → s.mem.get a = some ⟨p, .inner h l⟩ → h.depth = 0
  childDepth : ∀ a h l b c p h' l', IsInner s a h l → l.find b = .ok (some c) →
    s.mem.get c = some ⟨p, .inner h' l'⟩ → h'.depth = h.depth + h.prefixLength + 1
  agree : ∀ a h l, IsInner s a h l → ∀ v ∈ keysBelow tr s.mem a, ∀ w ∈ keysBelow tr s.mem a,
    ∀ i, h.depth ≤ i → i < h.depth + h.prefixLength → v.letter i = w.letter i
  stored : ∀ a h l, IsInner s a h l → ∀ w ∈ keysBelow tr s.mem a,
    ∀ i < min h.prefixLength maxPrefixLength, h.stored[i]? = some (w.letter (h.depth + i))
  distinct : ∀ a h l b c, IsInner s a h l → l.find b = .ok (some c) →
    ∀ w ∈ keysBelow tr s.mem c, w.letter (h.depth + h.prefixLength) = b
  type : ∀ a h l, IsInner s a h l → l.getType = Layout.typeFor l.count

/-! ### The number of inner nodes -/

/-- The inner nodes from a node down. -/
def innerBelow (mem : Memory (Cell PrefixHeader V)) (a : Addr) : Set Addr :=
  {x | Below mem a x ∧ ∃ p h l, mem.get x = some ⟨p, .inner h l⟩}

/-- **There are fewer inner nodes than leaves.** -/
theorem Rep.ncard_inner {mem : Memory (Cell PrefixHeader V)} {p a : Addr} {d : ℕ} {m : Contents n V}
    {own : Set Addr} (rep : Rep tr mem p a d m own) :
    (innerBelow mem a).Finite ∧ (innerBelow mem a).ncard + 1 ≤ size m := by
  induction rep with
  | @leaf p a d v cell le =>
      have none : innerBelow mem a = ∅ := by
        refine Set.eq_empty_of_forall_notMem fun x inside => ?_
        obtain ⟨reached, q, h, l, inner⟩ := inside
        cases reached with
        | refl =>
            rw [cell] at inner
            cases inner
        | child cell' slot rest =>
            rw [cell] at cell'
            cases cell'
      rw [none, size, dom_single, Set.ncard_singleton, Set.ncard_empty]
      exact ⟨Set.finite_empty, le_rfl⟩
  | @inner p a d m h l sub cell wf fits bound shared describes broad bare kid apart disjoint ih =>
      let part : Byte → Set Addr := fun b => (l.child b).elim ∅ (innerBelow mem)
      have split : innerBelow mem a ⊆ insert a (⋃ b, part b) := by
        intro x inside
        obtain ⟨reached, inner⟩ := inside
        cases reached with
        | refl => exact Set.mem_insert a _
        | @child _ c _ _ h' l' b cell' slot rest =>
            rw [cell] at cell'
            cases cell'
            rw [Layout.find_eq_some wf] at slot
            refine Or.inr (Set.mem_iUnion.mpr ⟨b, ?_⟩)
            show x ∈ (l.child b).elim ∅ (innerBelow mem)
            rw [slot]
            exact ⟨rest, inner⟩
      have parts : ∀ b, (part b).Finite ∧
          (part b).ncard + (if l.child b = none then 0 else 1) ≤ size (fiber m (branch h) b) := by
        intro b
        show ((l.child b).elim ∅ (innerBelow mem)).Finite ∧
          ((l.child b).elim ∅ (innerBelow mem)).ncard + _ ≤ _
        rcases slot : l.child b with _ | c
        · exact ⟨Set.finite_empty, by simp⟩
        · rw [if_neg (Option.some_ne_none c)]
          exact ih b c slot
      have finite : (insert a (⋃ b, part b)).Finite :=
        (Set.finite_iUnion fun b => (parts b).1).insert a
      have two : 2 ≤ l.count := by
        obtain ⟨v, inV, w, inW, differ⟩ := broad
        have whole := Rep.inner cell wf fits bound shared describes ⟨v, inV, w, inW, differ⟩ bare kid
          apart disjoint
        obtain ⟨sub', parts', -, -⟩ := whole.parts cell
        exact Layout.two_le_count wf (parts'.child_ne_none.mpr ⟨v, inV, rfl⟩)
          (parts'.child_ne_none.mpr ⟨w, inW, rfl⟩) differ
      have count : ∑ b : Byte, (if l.child b = none then 0 else 1) = l.count := by
        rw [Layout.count_eq wf, Finset.card_filter]
        exact Finset.sum_congr rfl fun b _ => by simp [ite_not]
      have total : ∑ b, (part b).ncard + l.count ≤ size m := by
        rw [← count, ← Finset.sum_add_distrib, ← sum_size_fiber m (branch h)]
        exact Finset.sum_le_sum fun b _ => (parts b).2
      have union : (⋃ b, part b).ncard ≤ ∑ b, (part b).ncard := Set.ncard_iUnion_le_of_fintype part
      refine ⟨finite.subset split, ?_⟩
      have below := Set.ncard_le_ncard split finite
      have insertion := Set.ncard_insert_le a (⋃ b, part b)
      omega

/-! ### The whole tree -/

namespace ArPrefixTree

variable {s : State K V n} {e : Addr} {M : Contents n V} {own : Set Addr}

/-- The inner nodes of a container are those below its root. -/
theorem inner_subset {r : Addr} (root : s.tree.root = some r) :
    {a | ∃ h l, IsInner s a h l} ⊆ innerBelow s.mem r := by
  intro a found
  obtain ⟨h, l, ⟨r', root', below⟩, p, cell⟩ := found
  rw [root, Option.some.injEq] at root'
  subst root'
  exact ⟨below, p, h, l, cell⟩

/-- **The number of inner nodes of a container.** -/
theorem ncard_inner_le (holds : Holds tr s e M own) :
    {a | ∃ h l, IsInner s a h l}.Finite ∧ {a | ∃ h l, IsInner s a h l}.ncard ≤ s.tree.count - 1 := by
  rcases root : s.tree.root with _ | r
  · have none : {a | ∃ h l, IsInner s a h l} = ∅ := by
      refine Set.eq_empty_of_forall_notMem fun a found => ?_
      obtain ⟨h, l, ⟨r, root', -⟩, -⟩ := found
      rw [root] at root'
      cases root'
    rw [none, Set.ncard_empty]
    exact ⟨Set.finite_empty, Nat.zero_le _⟩
  · obtain ⟨rest, ctx, rep, -, -⟩ := holds.path root (tr.defaultTransform tr.defaultKey)
    rw [under_zero] at rep
    obtain ⟨finite, fewer⟩ := rep.ncard_inner
    refine ⟨finite.subset (inner_subset root), ?_⟩
    have all := Set.ncard_le_ncard (inner_subset root) finite
    have count := holds.count
    omega

/-- **The shape of a container** keeps the representation invariant. -/
theorem compressed_of_holds (holds : Holds tr s e M own) : Compressed tr s where
  two a h l inner := by
    obtain ⟨reached, q, cell⟩ := inner
    obtain ⟨p, d, m, own, rep, -⟩ := holds.at_reached reached
    obtain ⟨sub, parts, -, -⟩ := rep.parts cell
    obtain ⟨v, inV, w, inW, differ⟩ := parts.broad
    refine ⟨?_, Layout.count_eq_ncard parts.wf⟩
    exact Layout.two_le_count parts.wf (parts.child_ne_none.mpr ⟨v, inV, rfl⟩)
      (parts.child_ne_none.mpr ⟨w, inW, rfl⟩) differ
  few := ncard_inner_le holds
  rootDepth a p h l root cell := by
    obtain ⟨rest, ctx, rep, -, -⟩ := holds.path root (tr.defaultTransform tr.defaultKey)
    obtain ⟨sub, parts, -, -⟩ := rep.parts cell
    obtain ⟨w, member⟩ := rep.nonempty
    exact (parts.describes w member).1
  childDepth a h l b c p h' l' inner slot cell' := by
    obtain ⟨reached, q, cell⟩ := inner
    obtain ⟨p', d, m, own, rep, -⟩ := holds.at_reached reached
    obtain ⟨sub, parts, -, -⟩ := rep.parts cell
    have kid := parts.kid b c ((Layout.find_eq_some parts.wf).mp slot)
    obtain ⟨sub', parts', -, -⟩ := kid.parts cell'
    obtain ⟨w, member⟩ := kid.nonempty
    exact (parts'.describes w member).1
  agree a h l inner v inV w inW i _ lt := by
    obtain ⟨reached, q, cell⟩ := inner
    obtain ⟨p, d, m, own, rep, -⟩ := holds.at_reached reached
    obtain ⟨sub, parts, -, -⟩ := rep.parts cell
    rw [rep.keysBelow_eq] at inV inW
    exact parts.shared v inV w inW i lt
  stored a h l inner w inW := by
    obtain ⟨reached, q, cell⟩ := inner
    obtain ⟨p, d, m, own, rep, -⟩ := holds.at_reached reached
    obtain ⟨sub, parts, -, -⟩ := rep.parts cell
    rw [rep.keysBelow_eq] at inW
    obtain ⟨rfl, spells⟩ := parts.describes w inW
    exact spells
  distinct a h l b c inner slot w inW := by
    obtain ⟨reached, q, cell⟩ := inner
    obtain ⟨p, d, m, own, rep, -⟩ := holds.at_reached reached
    obtain ⟨sub, parts, -, -⟩ := rep.parts cell
    have kid := parts.kid b c ((Layout.find_eq_some parts.wf).mp slot)
    rw [kid.keysBelow_eq] at inW
    exact (mem_dom_fiber.mp inW).1
  type a h l inner := by
    obtain ⟨reached, q, cell⟩ := inner
    obtain ⟨p, d, m, own, rep, -⟩ := holds.at_reached reached
    obtain ⟨sub, parts, -, -⟩ := rep.parts cell
    exact parts.fits.getType

/-- Headers on the path of one key that branch at the same position agree in what is in use. -/
theorem used_eq {h h' : PrefixHeader} {d : ℕ} {k : Key n} (describes : Describes h d k)
    (describes' : Describes h' d k) (same : branch h = branch h') : h.used = h'.used := by
  obtain ⟨depth, spells⟩ := describes
  obtain ⟨depth', spells'⟩ := describes'
  have length : h.prefixLength = h'.prefixLength := by
    have sum : h.depth + h.prefixLength = h'.depth + h'.prefixLength := same
    omega
  unfold PrefixHeader.used
  rw [depth, depth', length]
  congr 1
  refine Vector.ext fun i lt => ?_
  rw [Vector.getElem_ofFn, Vector.getElem_ofFn]
  by_cases inside : i < h'.prefixLength
  · have here := spells i (by omega)
    have here' := spells' i (by omega)
    rw [← here'] at here
    simpa [inside, lt] using here
  · rw [if_neg inside, if_neg inside]

/-- **The representation invariant of `ar_prefix_tree`**, after every history, and the independence of
the shape of the history. -/
theorem compressed_shape (fits : n ≤ 65536) (tr : Traits K V n) :
    (∀ (s : State K V n) (m : Table Byte n V), History tr s m → Compressed tr s) ∧
    ∀ (s s' : State K V n) (m m' : Table Byte n V), History tr s m → History tr s' m' →
      dom m = dom m' → viewAt PrefixHeader.used tr s = viewAt PrefixHeader.used tr s' := by
  constructor
  · intro s m history
    obtain ⟨e, M, own, holds, rfl⟩ := history.holds fits
    exact compressed_of_holds holds
  · intro s s' m m' history history' keys
    obtain ⟨e, M, own, holds, rfl⟩ := history.holds fits
    obtain ⟨e', M', own', holds', rfl⟩ := history'.holds fits
    rw [dom_values, dom_values] at keys
    funext path
    exact Holds.viewAt_eq used_eq holds holds' keys path

/-- Two keys with a shared prefix, inserted in either order. -/
theorem compressed_shape_pair :
    ∃ s s', insertAll (Traits.identity 3) [⟨#v[1, 2, 3]⟩, ⟨#v[1, 2, 4]⟩]
        (blankState PrefixHeader (Traits.identity 3)) = .ok ⟨⟩ s ∧
      insertAll (Traits.identity 3) [⟨#v[1, 2, 4]⟩, ⟨#v[1, 2, 3]⟩]
        (blankState PrefixHeader (Traits.identity 3)) = .ok ⟨⟩ s' ∧
      Compressed (Traits.identity 3) s ∧
      viewAt PrefixHeader.used (Traits.identity 3) s = viewAt PrefixHeader.used (Traits.identity 3) s' := by
  obtain ⟨s, run, history⟩ := insertAll_history (H := PrefixHeader) (by decide : 3 ≤ 65536)
    (Traits.identity 3) [⟨#v[1, 2, 3]⟩, ⟨#v[1, 2, 4]⟩]
  obtain ⟨s', run', history'⟩ := insertAll_history (H := PrefixHeader) (by decide : 3 ≤ 65536)
    (Traits.identity 3) [⟨#v[1, 2, 4]⟩, ⟨#v[1, 2, 3]⟩]
  refine ⟨s, s', run, run', (compressed_shape (by decide) _).1 s _ history,
    (compressed_shape (by decide) _).2 s s' _ _ history history' ?_⟩
  rw [dom_ofList, dom_ofList]
  exact Set.ext fun w => exists_congr fun x => and_congr_left' (List.Perm.swap _ _ []).mem_iff

end ArPrefixTree

end CppArt
