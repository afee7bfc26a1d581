/-
**Lookup and ordered search.**

* `find_spec`: `find` returns the leaf of the key, or the end where the key is absent;
* `bound_spec`: what `lower_bound` and `upper_bound` return. The descent follows the path of the key
  and ends at a leaf, at a missing child or inside the prefix of a node. From the first two the answer
  is right: the leaf itself, or the successor of the key as seen from the last inner node. That node
  does not exist when the root is a leaf, and then a null pointer is dereferenced. Inside a prefix the
  end is returned, whatever lies beyond.
-/

import CppArt.Proof.Laws

namespace CppArt

open Table

variable {H K V : Type} {n : ℕ} [Variant H] [HeaderSpec H] {tr : Traits K V n} {k : Key n}
  {M : Contents n V} {s : St H K V n} {e : Addr} {own : Set Addr}

/-! ### `find` -/

omit [HeaderSpec H] in
theorem findLoop_none {steps depth : ℕ} (enough : 0 < steps) (lt : depth < n + 1) :
    findLoop tr k steps depth none s = endIt s := by
  obtain ⟨steps, rfl⟩ : ∃ t, steps = t + 1 := ⟨steps - 1, by omega⟩
  rw [findLoop, if_pos lt]

/-- **The loop of `find`** from a node returns what the node's table has for the key. -/
theorem findLoop_spec [LawfulVariant H] {p a : Addr} {d : ℕ} {m : Contents n V} {own : Set Addr}
    (stateless : s.tree.keyTransform = tr.defaultTransform) (rep : Rep tr s.mem p a d m own) :
    ∀ steps, n < steps + d → findLoop tr k steps d (some a) s = (m k).elim (endIt s) fun entry =>
      .ok entry.1 s := by
  induction rep with
  | @leaf p a d v cell le =>
      intro steps enough
      obtain ⟨steps, rfl⟩ : ∃ t, steps = t + 1 := ⟨steps - 1, by omega⟩
      rw [findLoop, if_pos (Nat.lt_succ_of_le le)]
      rw [Exec.bind_of_ok (isLeaf_leaf cell), if_pos rfl, Exec.bind_of_ok (leafValue_ok cell),
        Exec.bind_of_ok (this_apply s), stateless, single_apply]
      by_cases same : k = tr.keyOf v
      · have accept : k = tr.defaultTransform (tr.keyOfValue v) := same
        rw [if_pos same, if_pos accept]
        rfl
      · have reject : k ≠ tr.defaultTransform (tr.keyOfValue v) := same
        rw [if_neg same, if_neg reject]
        rfl
  | @inner p a d m h l sub cell wf fits bound shared describes broad bare kid apart disjoint ih =>
      intro steps enough
      have nonempty := (HeaderSpec.broad_nontrivial broad).nonempty
      obtain ⟨v, member⟩ := nonempty
      have le : d ≤ branch h := HeaderSpec.depth_le (describes v member)
      obtain ⟨steps, rfl⟩ : ∃ t, steps = t + 1 := ⟨steps - 1, by omega⟩
      rw [findLoop, if_pos (by omega)]
      rw [Exec.bind_of_ok (isLeaf_inner cell), if_neg Bool.false_ne_true]
      rcases LawfulVariant.passStored_spec k cell bound describes ⟨v, member⟩ with
        run | ⟨run, outside⟩
      · rw [Exec.bind_of_ok run]
        simp only []
        rw [Exec.bind_of_ok (chunkAt_ok k bound s), Exec.bind_of_ok (findChild_ok cell wf _)]
        have here : fiber m (branch h) (k.letter (branch h)) k = m k := fiber_of_letter rfl
        rw [← here]
        rcases slot : l.child (k.letter (branch h)) with _ | c
        · rw [(bare _ slot).1, findLoop_none (by omega) (by omega)]
          rfl
        · exact ih _ c slot steps (by omega)
      · rw [Exec.bind_of_ok run]
        have absent : m k = none := by simpa using outside
        rw [absent]
        rfl

/-- **`find`** returns the leaf of the key, or the end where the key is absent. -/
theorem find_spec [LawfulVariant H] (holds : Holds tr s e M own) (k : K) :
    find tr k s = .ok ((M (tr.defaultTransform k)).elim e Prod.fst) s := by
  unfold find
  rw [Exec.bind_of_ok (this_apply s)]
  rcases root : s.tree.root with _ | r
  · rw [holds.eq_empty root]
    exact endIt_spec holds
  · obtain ⟨rest, ctx, rep, clear, owned⟩ := holds.path root (tr.defaultTransform k)
    simp only [holds.stateless]
    rw [findLoop_spec holds.stateless rep (n + 1) (by omega), under_zero, endIt_spec holds]
    cases M (tr.defaultTransform k) <;> rfl

/-! ### `lower_bound` and `upper_bound` -/

/-- The stored keys whose comparison with a key is accepted. -/
def accepted (accept : Ordering → Bool) (M : Contents n V) (k : Key n) : Set (Key n) :=
  {u | u ∈ dom M ∧ accept (lexCompare k.chunks.toList u.chunks.toList) = true}

/-- **A key departs inside a compressed prefix**: two or more stored keys agree with it on their first
`j` bytes, and all of these continue with one and the same byte, which is not the key's. -/
def Departs (stored : Set (Key n)) (k : Key n) : Prop :=
  ∃ j, {v | v ∈ stored ∧ Word.Agree j k v}.Nontrivial ∧
    ∃ b, b ≠ k.letter j ∧ ∀ v ∈ stored, Word.Agree j k v → v.letter j = b

/-- A key that departs is not stored. -/
theorem Departs.notMem {S : Set (Key n)} (departs : Departs S k) : k ∉ S := by
  obtain ⟨j, -, b, other, only⟩ := departs
  exact fun member => other (only k member (Word.Agree.refl j k)).symm

theorem departs_of_shared {S : Set (Key n)} {d r : ℕ}
    (several : {v | Word.Agree d k v ∧ v ∈ S}.Nontrivial)
    (shared : ∀ v ∈ S, Word.Agree d k v → ∀ w ∈ S, Word.Agree d k w → Word.Agree r v w)
    (apart : ∀ v ∈ S, Word.Agree d k v → ¬ Word.Agree r k v) : Departs S k := by
  obtain ⟨v, ⟨agree, member⟩⟩ := several.nonempty
  have differ : k ≠ v := by
    rintro rfl
    exact apart k member agree (Word.Agree.refl r k)
  obtain ⟨j, ge, -, agreeJ, letter⟩ := Word.exists_first_difference_from agree differ
  have lt : j < r := by
    by_contra beyond
    exact apart v member agree (agreeJ.mono (not_lt.mp beyond))
  refine ⟨j, several.mono fun u ⟨agreeU, inside⟩ => ⟨inside, ?_⟩, v.letter j, letter.symm,
    fun u inside agreeU => ?_⟩
  · exact agreeJ.trans ((shared v member agree u inside agreeU).mono lt.le)
  · exact (shared v member agree u inside (agreeU.mono ge) j lt).symm

section Bound

variable {accept : Ordering → Bool}

theorem accepted_of_lt (up : accept .lt = true) {u : Key n} (member : u ∈ dom M) (less : k < u) :
    u ∈ accepted accept M k := by
  refine ⟨member, ?_⟩
  rw [Word.lexCompare_eq, if_neg less.ne, if_pos less]
  exact up

theorem le_of_accepted (down : accept .gt = false) {u : Key n} (inside : u ∈ accepted accept M k) :
    k ≤ u := by
  by_contra less
  have greater := not_le.mp less
  have verdict := inside.2
  rw [Word.lexCompare_eq, if_neg greater.ne', if_neg greater.le.not_gt, down] at verdict
  cases verdict

/-- The keys beyond `k` that leave its path are the accepted ones, if none on the path is. -/
theorem beyond_eq_accepted (up : accept .lt = true) (down : accept .gt = false) {d : ℕ}
    (none : ∀ u ∈ accepted accept M k, ¬ Word.Agree d k u) :
    beyond .up M k d = accepted accept M k := by
  ext u
  constructor
  · exact fun ⟨member, _, less⟩ => accepted_of_lt up member less
  · intro inside
    refine ⟨inside.1, none u inside, lt_of_le_of_ne (le_of_accepted down inside) ?_⟩
    rintro rfl
    exact none k inside (Word.Agree.refl d k)

omit [Variant H] [HeaderSpec H] in
/-- The answer of `successor` designates the first accepted key. -/
theorem designates_of_neighbour {d : ℕ} {climb : Run H K V n Addr}
    (same : beyond .up M k d = accepted accept M k)
    (found : (∃ w it v, climb s = .ok it s ∧ M w = some (it, v) ∧
        Dir.up.IsFirst (beyond .up M k d) w) ∨
      (beyond .up M k d = ∅ ∧ (Dir.up = .up → climb s = .ok e s))) :
    ∃ it, climb s = .ok it s ∧ Designates M e (accepted accept M k) it := by
  rw [same] at found
  rcases found with ⟨w, it, v, run, entry, first⟩ | ⟨none, run⟩
  · exact ⟨it, run, .inl ⟨w, v, entry, first⟩⟩
  · exact ⟨e, run rfl, .inr ⟨none, rfl⟩⟩

omit [HeaderSpec H] in
theorem boundLoop_none {steps depth : ℕ} {q : Addr} (enough : 0 < steps) (lt : depth < n + 1) :
    boundLoop tr accept k steps depth none (some q) s = neighbour .up k q s := by
  obtain ⟨steps, rfl⟩ : ∃ t, steps = t + 1 := ⟨steps - 1, by omega⟩
  rw [boundLoop, if_pos lt]
  rfl

/-- **The loop of `lower_bound` and `upper_bound`**, along the path of the key. -/
theorem boundLoop_spec [LawfulVariant H] (holds : Holds tr s e M own) (up : accept .lt = true)
    (down : accept .gt = false) :
    ∀ (steps : ℕ) {p c : Addr} {prev : Option Addr} {d : ℕ} {own' rest : Set Addr}, n < steps + d →
      Ctx tr s.mem s.tree.dummyNode e s.tree.root k M (dom M) p c d own' →
      Rep tr s.mem p c d (under M k d) rest → Disjoint own' rest →
      (prev = some p ∨ (prev = none ∧ d = 0)) →
      (∃ it, boundLoop tr accept k steps d (some c) prev s = .ok it s ∧
          Designates M e (accepted accept M k) it) ∨
        (boundLoop tr accept k steps d (some c) prev s = .ok e s ∧ Departs (dom M) k ∧
          ∃ a d', Variant.pass tr a k d' s = .ok none s) ∨
        (boundLoop tr accept k steps d (some c) prev s = .error .nullPointer s ∧
          ∃ w, dom M = {w} ∧ w ∉ accepted accept M k)
  | 0, p, c, prev, d, own', rest, enough, ctx, rep, clear, previous => by
      have := ctx.depth_le
      omega
  | steps + 1, p, c, prev, d, own', rest, enough, ctx, rep, clear, previous => by
      rw [boundLoop, if_pos (Nat.lt_succ_of_le ctx.depth_le)]
      simp only []
      rcases rep.inspect with ⟨v, cell, table, rfl⟩ | ⟨h, l, cell, wf, bound, le, shared, describes⟩
      · -- a leaf: the only stored key on the path
        have only : ∀ u ∈ dom M, Word.Agree d k u → u = tr.keyOf v := by
          intro u member agree
          have inside : u ∈ dom (under M k d) := mem_dom_under.mpr ⟨agree, member⟩
          rwa [table, dom_single] at inside
        have entry : M (tr.keyOf v) = some (c, v) ∧ Word.Agree d k (tr.keyOf v) := by
          have inside : tr.keyOf v ∈ dom (under M k d) := by rw [table, dom_single]; rfl
          have agree := (mem_dom_under.mp inside).1
          exact ⟨by rw [← under_of_agree (m := M) agree, table, single_self], agree⟩
        rw [Exec.bind_of_ok (isLeaf_leaf cell), if_pos rfl, Exec.bind_of_ok (leafValue_ok cell),
          Exec.bind_of_ok (this_apply s), holds.key_eq]
        by_cases accepts : accept (lexCompare k.chunks.toList (tr.keyOf v).chunks.toList) = true
        · left
          refine ⟨c, by rw [if_pos accepts]; rfl, .inl ⟨tr.keyOf v, v, entry.1, ⟨?_, ?_⟩⟩⟩
          · exact ⟨mem_dom_of_eq_some entry.1, accepts⟩
          · intro u inside differ
            have apart : ¬ Word.Agree d k u := fun agree => differ (only u inside.1 agree)
            have less : k < u := lt_of_le_of_ne (le_of_accepted down inside) fun same =>
              apart (same ▸ Word.Agree.refl d k)
            have side : Dir.up.before k u := less
            exact Word.before_of_agree entry.2 apart side
        · rw [if_neg accepts]
          have none : ∀ u ∈ accepted accept M k, ¬ Word.Agree d k u := by
            intro u inside agree
            rw [only u inside.1 agree] at inside
            exact accepts inside.2
          rcases previous with rfl | ⟨rfl, rfl⟩
          · left
            exact designates_of_neighbour (beyond_eq_accepted up down none)
              (neighbour_spec ctx .up)
          · refine .inr (.inr ⟨rfl, tr.keyOf v, ?_, fun inside => accepts inside.2⟩)
            rw [← under_zero M k, table, dom_single]
      · rw [Exec.bind_of_ok (isLeaf_inner cell), if_neg Bool.false_ne_true]
        rcases LawfulVariant.pass_spec rep cell fun v member => (mem_dom_under.mp member).1 with
          ⟨run, sharedK⟩ | ⟨run, apart⟩
        · rw [Exec.bind_of_ok run]
          simp only []
          rw [Exec.bind_of_ok (chunkAt_ok k bound s), Exec.bind_of_ok (findChild_ok cell wf _)]
          rcases slot : l.child (k.letter (branch h)) with _ | c'
          · -- a missing child: nothing is stored below
            left
            obtain ⟨sub, node, -, -, -, -, vacant⟩ := PathNode.of_missing rep clear cell sharedK slot
            rw [boundLoop_none (by omega) (by omega)]
            refine designates_of_neighbour (beyond_eq_accepted up down ?_)
              (neighbour_of_node ctx node .up)
            intro u inside agree
            have below : u ∈ dom (under M k (branch h + 1)) := mem_dom_under.mpr ⟨agree, inside.1⟩
            rw [vacant, dom_empty] at below
            exact below
          · obtain ⟨own₁, rest₁, ctx₁, rep₁, clear₁, -⟩ := ctx.descend rep clear cell sharedK slot
            exact boundLoop_spec holds up down steps (by omega) ctx₁ rep₁ clear₁ (.inl rfl)
        · -- the key leaves the prefix of the node
          refine .inr (.inl ⟨?_, ?_, c, d, run⟩)
          · rw [Exec.bind_of_ok run]
            exact endIt_spec holds
          · have several := HeaderSpec.broad_nontrivial (rep.broad cell)
            rw [dom_under] at several shared apart
            exact departs_of_shared several
              (fun v inV agreeV w inW agreeW => shared v ⟨agreeV, inV⟩ w ⟨agreeW, inW⟩)
              fun v inV agreeV => apart v ⟨agreeV, inV⟩

/-- **`lower_bound` and `upper_bound`.** The answer is right, or the key departs inside a prefix and
the end is returned, or the only stored key is not accepted and a null pointer is dereferenced. -/
theorem bound_spec [LawfulVariant H] (holds : Holds tr s e M own) (up : accept .lt = true)
    (down : accept .gt = false) (k : K) :
    (∃ it, bound tr accept k s = .ok it s ∧
        Designates M e (accepted accept M (tr.defaultTransform k)) it) ∨
      (bound tr accept k s = .ok e s ∧ Departs (dom M) (tr.defaultTransform k) ∧
        ∃ a d, Variant.pass tr a (tr.defaultTransform k) d s = .ok none s) ∨
      (bound tr accept k s = .error .nullPointer s ∧
        ∃ w, dom M = {w} ∧ w ∉ accepted accept M (tr.defaultTransform k)) := by
  unfold bound
  rw [Exec.bind_of_ok (this_apply s)]
  rcases root : s.tree.root with _ | r
  · refine .inl ⟨e, endIt_spec holds, .inr ⟨?_, rfl⟩⟩
    rw [holds.eq_empty root]
    exact Set.eq_empty_of_forall_notMem fun u inside => inside.1 rfl
  · obtain ⟨rest, ctx, rep, clear, owned⟩ := holds.path root (tr.defaultTransform k)
    simp only [holds.stateless]
    exact boundLoop_spec holds up down (n + 1) (by omega) ctx rep clear (.inr ⟨rfl, rfl⟩)

/-- When the only stored key is not accepted, the null `previous_node` is dereferenced. -/
theorem bound_single (holds : Holds tr s e M own) {w : Key n} (k : K) (only : dom M = {w})
    (rejected : w ∉ accepted accept M (tr.defaultTransform k)) :
    bound tr accept k s = .error .nullPointer s := by
  have member : w ∈ dom M := by
    rw [only]
    rfl
  unfold bound
  rw [Exec.bind_of_ok (this_apply s)]
  rcases root : s.tree.root with _ | r
  · rw [holds.eq_empty root, dom_empty] at member
    exact absurd member (Set.notMem_empty w)
  · obtain ⟨rest, ctx, rep, clear, owned⟩ := holds.path root (tr.defaultTransform k)
    simp only [holds.stateless]
    rw [under_zero] at rep
    rcases rep.inspect with ⟨v, cell, table, -⟩ | ⟨h, l, cell, -⟩
    · have key : tr.keyOf v = w := by
        rw [table, dom_single] at only
        exact Set.singleton_injective only
      rw [boundLoop, if_pos (Nat.succ_pos n)]
      simp only []
      rw [Exec.bind_of_ok (isLeaf_leaf cell), if_pos rfl, Exec.bind_of_ok (leafValue_ok cell),
        Exec.bind_of_ok (this_apply s), holds.key_eq, if_neg fun accepts => rejected ⟨member, key ▸ accepts⟩]
      rfl
    · have several := HeaderSpec.broad_nontrivial (rep.broad cell)
      rw [only] at several
      exact absurd several Set.not_nontrivial_singleton

end Bound

end CppArt
