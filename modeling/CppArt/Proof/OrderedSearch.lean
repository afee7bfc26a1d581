/-
**When `lower_bound`, `upper_bound` and `equal_range` are right.**

`OrderedSearch tr s m k`: `lower_bound` returns the element of the least stored key that is not below
`k`, `upper_bound` the one of the least key above `k`, the end where there is none, and `equal_range`
delimits the elements with the key `k`. Two defects stand in the way:

* in a tree whose root is a leaf the descent has no `previous_node` to ask for a successor, so a null
  pointer is dereferenced when the leaf is not accepted (`bound_single`);
* in `ar_prefix_tree` a key that departs inside the prefix of a node gets `end`, also when there are
  keys above it (`boundLoop_of_departs`).

Apart from these the answers are right, and where one of them applies they are wrong
(`arTree_orderedSearch_iff`, `arPrefixTree_orderedSearch_iff`).
-/

import CppArt.Proof.Iteration

namespace CppArt

open Table

variable {H K V : Type} {n : ℕ}

/-- **The ordered search for a key is right.** -/
structure OrderedSearch [Variant H] (tr : Traits K V n) (s : St H K V n) (m : Table Byte n V)
    (k : K) : Prop where
  lower : ∃ it, lowerBound tr k s = .ok it s ∧
    PointsTo tr s {w | w ∈ dom m ∧ tr.defaultTransform k ≤ w} it
  upper : ∃ it, upperBound tr k s = .ok it s ∧
    PointsTo tr s {w | w ∈ dom m ∧ tr.defaultTransform k < w} it
  range : ∃ first last its, equalRange tr k s = .ok (first, last) s ∧ Spans tr s first last its ∧
    ∀ it, it ∈ its ↔ ∃ v, Stored s it v ∧ tr.keyOf v = tr.defaultTransform k

/-- **The tree is a single leaf whose key is not above `k`.** -/
def SingleLeafUpTo (stored : Set (Key n)) (k : Key n) : Prop := ∃ w, stored = {w} ∧ w ≤ k

/-- **A key leaves the tree inside a prefix**, and there are stored keys above it. -/
def DepartsBelow (stored : Set (Key n)) (k : Key n) : Prop :=
  Departs stored k ∧ ∃ w ∈ stored, k < w

/-- Two stored keys are not a single leaf. -/
theorem not_singleLeafUpTo {stored : Set (Key n)} {k v w : Key n} (inV : v ∈ stored)
    (inW : w ∈ stored) (differ : v ≠ w) : ¬ SingleLeafUpTo stored k := by
  rintro ⟨u, rfl, -⟩
  exact differ (inV.trans inW.symm)

/-! ### The keys that are accepted -/

theorem accepted_lower (M : Contents n V) (k : Key n) :
    accepted (fun comparison => comparison != .gt) M k = {u | u ∈ dom M ∧ k ≤ u} := by
  ext u
  have decided : ((lexCompare k.chunks.toList u.chunks.toList) != .gt) = true ↔ k ≤ u := by
    rw [Word.lexCompare_eq]
    rcases lt_trichotomy k u with less | rfl | greater
    · simp [less.ne, less, less.le]
    · simp
    · simp [greater.ne', greater.le.not_gt, greater.not_ge]
  exact and_congr_right fun _ => decided

theorem accepted_upper (M : Contents n V) (k : Key n) :
    accepted (fun comparison => comparison == .lt) M k = above M k := by
  ext u
  have decided : ((lexCompare k.chunks.toList u.chunks.toList) == .lt) = true ↔ k < u := by
    rw [Word.lexCompare_eq]
    rcases lt_trichotomy k u with less | rfl | greater
    · simp [less.ne, less]
    · simp
    · simp [greater.ne', greater.le.not_gt]
  exact and_congr_right fun _ => decided

section Generic

variable [Variant H] [HeaderSpec H] {tr : Traits K V n} {s : St H K V n} {e : Addr} {M : Contents n V}
  {own : Set Addr}

/-- **The range between the two bounds** consists of the leaf of the key, if it is stored. -/
theorem spans_of_bounds (holds : Holds tr s e M own) {k : Key n} {first last : Addr}
    (lower : Designates M e {u | u ∈ dom M ∧ k ≤ u} first) (upper : Designates M e (above M k) last) :
    ∃ its, Spans tr s first last its ∧ ∀ it, it ∈ its ↔ ∃ v, Stored s it v ∧ tr.keyOf v = k := by
  rcases entry : M k with _ | ⟨it, v⟩
  · have same : {u | u ∈ dom M ∧ k ≤ u} = above M k := by
      ext u
      refine and_congr_right fun member => ⟨fun le => lt_of_le_of_ne le ?_, le_of_lt⟩
      rintro rfl
      exact member entry
    rw [same] at lower
    refine ⟨[], ⟨[], rfl, by rw [lower.unique upper]; rfl⟩, fun it => ?_⟩
    refine iff_of_false List.not_mem_nil ?_
    rintro ⟨v, stored, key⟩
    have found := holds.stored_iff.mp stored
    rw [key, entry] at found
    cases found
  · have here : Designates M e {u | u ∈ dom M ∧ k ≤ u} it :=
      .inl ⟨k, v, entry, ⟨mem_dom_of_eq_some entry, le_rfl⟩, fun u inside differ =>
        lt_of_le_of_ne inside.2 (Ne.symm differ)⟩
    obtain ⟨next, run, designates⟩ := increment_spec holds entry
    rw [lower.unique here, upper.unique designates]
    refine ⟨[it], ⟨[next], Exec.bind_of_ok run _, rfl⟩, fun it' => ?_⟩
    rw [List.mem_singleton]
    constructor
    · rintro rfl
      exact ⟨v, holds.stored_of_entry entry⟩
    · rintro ⟨v', stored, key⟩
      have found := holds.stored_iff.mp stored
      rw [key, entry, Option.some.injEq, Prod.mk.injEq] at found
      exact found.1.symm

/-- Two right bounds make a right ordered search. -/
theorem orderedSearch_of_bounds (holds : Holds tr s e M own) {k : K} {first last : Addr}
    (lower : lowerBound tr k s = .ok first s) (upper : upperBound tr k s = .ok last s)
    (lowerAt : Designates M e {u | u ∈ dom M ∧ tr.defaultTransform k ≤ u} first)
    (upperAt : Designates M e (above M (tr.defaultTransform k)) last) :
    OrderedSearch tr s (values M) k := by
  obtain ⟨its, spans, members⟩ := spans_of_bounds holds lowerAt upperAt
  refine ⟨⟨first, lower, ?_⟩, ⟨last, upper, ?_⟩, first, last, its, ?_, spans, members⟩
  · rw [dom_values]
    exact holds.pointsTo lowerAt
  · rw [dom_values]
    exact holds.pointsTo upperAt
  · exact (Exec.bind_of_ok lower _).trans (Exec.bind_of_ok upper _)

/-- A single leaf that is not above the key makes `upper_bound` fail. -/
theorem not_orderedSearch_of_single (holds : Holds tr s e M own) {k : K}
    (single : SingleLeafUpTo (dom M) (tr.defaultTransform k)) :
    ¬ OrderedSearch tr s (values M) k := by
  intro search
  obtain ⟨w, only, le⟩ := single
  obtain ⟨it, run, -⟩ := search.upper
  have stuck : upperBound tr k s = .error .nullPointer s := by
    refine bound_single holds k only ?_
    rw [accepted_upper]
    exact fun inside => absurd inside.2 le.not_gt
  rw [stuck] at run
  cases run

/-- **A bound is right** unless the tree is a single leaf that is not accepted or the key departs. -/
theorem bound_designates [LawfulVariant H] (accept : Ordering → Bool) (holds : Holds tr s e M own)
    (up : accept .lt = true) (down : accept .gt = false) (k : K)
    (several : ¬ ∃ w, dom M = {w} ∧ w ∉ accepted accept M (tr.defaultTransform k))
    (stays : Departs (dom M) (tr.defaultTransform k) →
      (∃ a d, Variant.pass tr a (tr.defaultTransform k) d s = .ok none s) →
      accepted accept M (tr.defaultTransform k) = ∅) :
    ∃ it, bound tr accept k s = .ok it s ∧
      Designates M e (accepted accept M (tr.defaultTransform k)) it := by
  rcases bound_spec holds up down k with right | ⟨run, departs, stopped⟩ | ⟨-, single⟩
  · exact right
  · exact ⟨e, run, .inr ⟨stays departs stopped, rfl⟩⟩
  · exact absurd single several

/-- **The ordered search is right** where neither defect applies. -/
theorem orderedSearch_of [LawfulVariant H] (holds : Holds tr s e M own) (k : K)
    (several : ¬ SingleLeafUpTo (dom M) (tr.defaultTransform k))
    (stays : Departs (dom M) (tr.defaultTransform k) →
      (∃ a d, Variant.pass tr a (tr.defaultTransform k) d s = .ok none s) →
      ∀ w ∈ dom M, w ≤ tr.defaultTransform k) : OrderedSearch tr s (values M) k := by
  have alone : ∀ {accept : Ordering → Bool}, accept .lt = true →
      ¬ ∃ w, dom M = {w} ∧ w ∉ accepted accept M (tr.defaultTransform k) := by
    rintro accept up ⟨w, only, rejected⟩
    have member : w ∈ dom M := by
      rw [only]
      rfl
    exact several ⟨w, only, not_lt.mp fun less => rejected (accepted_of_lt up member less)⟩
  obtain ⟨last, upper, upperAt⟩ := bound_designates (fun comparison => comparison == .lt)
    holds rfl rfl k (alone rfl) fun departs stopped => by
      rw [accepted_upper]
      exact Set.eq_empty_of_forall_notMem fun w inside =>
        (stays departs stopped w inside.1).not_gt inside.2
  obtain ⟨first, lower, lowerAt⟩ := bound_designates (fun comparison => comparison != .gt)
    holds rfl rfl k (alone rfl) fun departs stopped => by
      rw [accepted_lower]
      refine Set.eq_empty_of_forall_notMem fun w inside => departs.notMem ?_
      rw [le_antisymm inside.2 (stays departs stopped w inside.1)]
      exact inside.1
  rw [accepted_lower] at lowerAt
  rw [accepted_upper] at upperAt
  exact orderedSearch_of_bounds holds lower upper lowerAt upperAt

end Generic

/-! ### `ar_tree` -/

/-- **The ordered search of `ar_tree` is right** unless the tree is a single leaf that is not above
the key. -/
theorem arTree_orderedSearch_iff (tr : Traits K V n) {s : ArTree.State K V n} {m : Table Byte n V}
    (history : History tr s m) (k : K) :
    OrderedSearch tr s m k ↔ ¬ SingleLeafUpTo (dom m) (tr.defaultTransform k) := by
  obtain ⟨e, M, own, holds, rfl⟩ := history.holds trivial
  rw [dom_values]
  constructor
  · exact fun search single => not_orderedSearch_of_single holds single search
  · intro several
    refine orderedSearch_of holds k several ?_
    rintro - ⟨a, d, stopped⟩
    cases stopped

/-- The key `6` in a tree of the keys `5` and `7`. -/
theorem arTree_orderedSearch_between :
    ∃ s, insertAll (Traits.identity 1) [⟨#v[5]⟩, ⟨#v[7]⟩] (blankState DepthHeader (Traits.identity 1))
        = .ok ⟨⟩ s ∧
      OrderedSearch (Traits.identity 1) s (Table.ofList (Traits.identity 1) [⟨#v[5]⟩, ⟨#v[7]⟩])
        ⟨#v[6]⟩ := by
  obtain ⟨s, run, history⟩ := insertAll_history (H := DepthHeader) trivial (Traits.identity 1)
    [⟨#v[5]⟩, ⟨#v[7]⟩]
  refine ⟨s, run, (arTree_orderedSearch_iff _ history _).mpr ?_⟩
  exact not_singleLeafUpTo (v := ⟨#v[5]⟩) (w := ⟨#v[7]⟩) (by decide) (by decide) (by decide)

/-- **A tree of the key `5`**: `lower_bound` of `7` dereferences a null pointer. -/
theorem arTree_orderedSearch_single_leaf :
    ∃ s, History (H := DepthHeader) (Traits.identity 1) s (Table.ofList (Traits.identity 1) [⟨#v[5]⟩]) ∧
      (∃ s', lowerBound (Traits.identity 1) ⟨#v[7]⟩ s = .error .nullPointer s') ∧
      ¬ OrderedSearch (Traits.identity 1) s (Table.ofList (Traits.identity 1) [⟨#v[5]⟩]) ⟨#v[7]⟩ := by
  obtain ⟨s, run, history⟩ := insertAll_history (H := DepthHeader) trivial (Traits.identity 1)
    [⟨#v[5]⟩]
  have evaluated : Exec.fault? ((insertAll (Traits.identity 1) [⟨#v[5]⟩] >>= fun _ =>
      lowerBound (Traits.identity 1) ⟨#v[7]⟩) (blankState DepthHeader (Traits.identity 1)))
      = some .nullPointer := by decide +kernel
  obtain ⟨s', stuck⟩ := Exec.error_of_fault? run evaluated
  refine ⟨s, history, ⟨s', stuck⟩, fun search => ?_⟩
  obtain ⟨it, found, -⟩ := search.lower
  rw [stuck] at found
  cases found

/-! ### `ar_prefix_tree` -/

section Prefix

variable {tr : Traits K V n} {k : Key n} {s : ArPrefixTree.State K V n} {e : Addr} {M : Contents n V}
  {own : Set Addr}

/-- **A key that departs** is followed to the node in whose prefix it departs, and `end` is returned. -/
theorem ArPrefixTree.boundLoop_of_departs (holds : Holds tr s e M own) (accept : Ordering → Bool) {j : ℕ}
    {b : Byte} (several : {v | v ∈ dom M ∧ Word.Agree j k v}.Nontrivial) (other : b ≠ k.letter j)
    (only : ∀ v ∈ dom M, Word.Agree j k v → v.letter j = b) :
    ∀ (steps : ℕ) {p c : Addr} {prev : Option Addr} {d : ℕ} {own' rest : Set Addr}, n < steps + d →
      d ≤ j → Ctx tr s.mem s.tree.dummyNode e s.tree.root k M (dom M) p c d own' →
      Rep tr s.mem p c d (under M k d) rest → Disjoint own' rest →
      boundLoop tr accept k steps d (some c) prev s = .ok e s
  | 0, p, c, prev, d, own', rest, enough, le, ctx, rep, clear => by
      have := ctx.depth_le
      omega
  | steps + 1, p, c, prev, d, own', rest, enough, le, ctx, rep, clear => by
      obtain ⟨v, inV, w, inW, apart⟩ := several
      have below : ∀ u ∈ dom M, Word.Agree j k u → u ∈ dom (under M k d) := fun u member agree =>
        mem_dom_under.mpr ⟨agree.mono le, member⟩
      rw [boundLoop, if_pos (Nat.lt_succ_of_le ctx.depth_le)]
      simp only []
      rcases rep.inspect with ⟨x, cell, table, -⟩ | ⟨h, l, cell, wf, bound, ge, shared, describes⟩
      · -- two keys on the path are not below a leaf
        rw [table, dom_single] at below
        exact absurd ((below v inV.1 inV.2).trans (below w inW.1 inW.2).symm) apart
      · rw [Exec.bind_of_ok (isLeaf_inner cell), if_neg Bool.false_ne_true]
        rcases LawfulVariant.pass_spec rep cell fun u member => (mem_dom_under.mp member).1 with
          ⟨run, sharedK⟩ | ⟨run, -⟩
        · have deeper : branch h < j := by
            by_contra beyond
            have all : ∀ u ∈ dom (under M k d), Word.Agree j k u := fun u member =>
              (sharedK u member).mono (not_lt.mp beyond)
            have letter : ∀ u ∈ dom (under M k d), u.letter j = b := fun u member =>
              only u (mem_dom_under.mp member).2 (all u member)
            rcases (not_lt.mp beyond).lt_or_eq with less | same
            · have first := below v inV.1 inV.2
              exact other ((letter v first).symm.trans (sharedK v first j less).symm)
            · obtain ⟨u, inU, u', inU', differ⟩ := rep.broad cell
              rw [← same] at differ
              exact differ ((letter u inU).trans (letter u' inU').symm)
          rw [Exec.bind_of_ok run]
          simp only []
          rw [Exec.bind_of_ok (chunkAt_ok k bound s), Exec.bind_of_ok (findChild_ok cell wf _)]
          rcases slot : l.child (k.letter (branch h)) with _ | c'
          · obtain ⟨sub, node, -, -, -, -, vacant⟩ := PathNode.of_missing rep clear cell sharedK slot
            have inside : v ∈ dom (under M k (branch h + 1)) :=
              mem_dom_under.mpr ⟨inV.2.mono deeper, inV.1⟩
            rw [vacant, dom_empty] at inside
            exact absurd inside (Set.notMem_empty v)
          · obtain ⟨own₁, rest₁, ctx₁, rep₁, clear₁, -⟩ := ctx.descend rep clear cell sharedK slot
            exact ArPrefixTree.boundLoop_of_departs holds accept ⟨v, inV, w, inW, apart⟩ other only steps
              (by omega) deeper ctx₁ rep₁ clear₁
        · rw [Exec.bind_of_ok run]
          exact endIt_spec holds

/-- Every bound of a key that departs is the end. -/
theorem ArPrefixTree.bound_of_departs (holds : Holds tr s e M own) (accept : Ordering → Bool) {k : K}
    (departs : Departs (dom M) (tr.defaultTransform k)) : bound tr accept k s = .ok e s := by
  obtain ⟨j, several, b, other, only⟩ := departs
  unfold bound
  rw [Exec.bind_of_ok (this_apply s)]
  rcases root : s.tree.root with _ | r
  · exact endIt_spec holds
  · obtain ⟨rest, ctx, rep, clear, owned⟩ := holds.path root (tr.defaultTransform k)
    simp only [holds.stateless]
    exact ArPrefixTree.boundLoop_of_departs holds _ several other only (n + 1) (by omega)
      (Nat.zero_le j) ctx rep clear

/-- **The ordered search of `ar_prefix_tree` is right** unless the tree is a single leaf that is not
above the key, or the key departs inside a prefix and there are keys above it. -/
theorem arPrefixTree_orderedSearch_iff (tr : Traits K V n) (fits : n ≤ 65536)
    {s : ArPrefixTree.State K V n} {m : Table Byte n V} (history : History tr s m) (k : K) :
    OrderedSearch tr s m k ↔ ¬ SingleLeafUpTo (dom m) (tr.defaultTransform k) ∧
      ¬ DepartsBelow (dom m) (tr.defaultTransform k) := by
  obtain ⟨e, M, own, holds, rfl⟩ := history.holds fits
  rw [dom_values]
  constructor
  · intro search
    refine ⟨fun single => not_orderedSearch_of_single holds single search, ?_⟩
    rintro ⟨departs, w, member, less⟩
    obtain ⟨it, run, points⟩ := search.upper
    rw [show upperBound tr k s = .ok e s from ArPrefixTree.bound_of_departs holds _ departs] at run
    cases run
    exact holds.not_pointsTo_end points ⟨by rwa [dom_values], less⟩
  · rintro ⟨several, stays⟩
    refine orderedSearch_of holds k several fun departs _ w member => ?_
    exact not_lt.mp fun less => stays ⟨departs, w, member, less⟩

end Prefix

/-- The key `(1, 1)` in a tree of the keys `(1, 1)` and `(1, 3)`. -/
theorem arPrefixTree_orderedSearch_stored :
    ∃ s, insertAll (Traits.identity 2) [⟨#v[1, 1]⟩, ⟨#v[1, 3]⟩]
        (blankState PrefixHeader (Traits.identity 2)) = .ok ⟨⟩ s ∧
      OrderedSearch (Traits.identity 2) s
        (Table.ofList (Traits.identity 2) [⟨#v[1, 1]⟩, ⟨#v[1, 3]⟩]) ⟨#v[1, 1]⟩ := by
  have fits : 2 ≤ 65536 := by decide
  obtain ⟨s, run, history⟩ := insertAll_history (H := PrefixHeader) fits (Traits.identity 2)
    [⟨#v[1, 1]⟩, ⟨#v[1, 3]⟩]
  refine ⟨s, run, (arPrefixTree_orderedSearch_iff _ fits history _).mpr ⟨?_, fun departs => ?_⟩⟩
  · exact not_singleLeafUpTo (v := (⟨#v[1, 1]⟩ : Key 2)) (w := ⟨#v[1, 3]⟩) (by decide) (by decide)
      (by decide)
  · exact departs.1.notMem (by decide)

/-- **A tree of the keys `(1, 1)` and `(1, 3)`**: their common byte is a prefix. `lower_bound` of
`(0, 0)`, which departs in this prefix, is `end`. -/
theorem arPrefixTree_orderedSearch_departs :
    ∃ s, History (H := PrefixHeader) (Traits.identity 2) s
        (Table.ofList (Traits.identity 2) [⟨#v[1, 1]⟩, ⟨#v[1, 3]⟩]) ∧
      (∃ e s', lowerBound (Traits.identity 2) ⟨#v[0, 0]⟩ s = .ok e s' ∧ IsEnd s e) ∧
      ¬ OrderedSearch (Traits.identity 2) s
        (Table.ofList (Traits.identity 2) [⟨#v[1, 1]⟩, ⟨#v[1, 3]⟩]) ⟨#v[0, 0]⟩ := by
  have fits : 2 ≤ 65536 := by decide
  obtain ⟨s, run, history⟩ := insertAll_history (H := PrefixHeader) fits (Traits.identity 2)
    [⟨#v[1, 1]⟩, ⟨#v[1, 3]⟩]
  have evaluated : Exec.value? ((insertAll (Traits.identity 2) [⟨#v[1, 1]⟩, ⟨#v[1, 3]⟩] >>= fun _ =>
      lowerBound (Traits.identity 2) ⟨#v[0, 0]⟩) (blankState PrefixHeader (Traits.identity 2)))
      = some 1 := by decide +kernel
  have ended : Exec.value? ((insertAll (Traits.identity 2) [⟨#v[1, 1]⟩, ⟨#v[1, 3]⟩] >>= fun _ =>
      endIt) (blankState PrefixHeader (Traits.identity 2))) = some 1 := by decide +kernel
  obtain ⟨s', found⟩ := Exec.ok_of_value? run evaluated
  obtain ⟨t, last⟩ := Exec.ok_of_value? run ended
  obtain ⟨e, M, own, holds, table⟩ := history.holds fits
  rw [endIt_spec holds] at last
  cases last
  refine ⟨s, history, ⟨1, s', found, holds.isEnd_iff.mpr rfl⟩, fun search => ?_⟩
  obtain ⟨it, run', points⟩ := search.lower
  rw [found] at run'
  cases run'
  have less : (⟨#v[0, 0]⟩ : Key 2) < ⟨#v[1, 1]⟩ :=
    Word.lt_of_letter (Word.agree_zero _ _) (by decide : (0 : Byte) < 1)
  exact holds.not_pointsTo_end points ⟨(by decide : (⟨#v[1, 1]⟩ : Key 2) ∈ dom _), less.le⟩

end CppArt
