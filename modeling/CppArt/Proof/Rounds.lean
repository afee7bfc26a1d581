/-
**The rounds of the loops.**

In an `ar_prefix_tree` every inner node has children for two bytes, so a subtree has fewer values than the
one above it. A loop that goes down from a subtree with `k` values ends within `k` rounds.

* `size_under_lt`: fewer values below;
* `findLoop_rounds`, `boundLoop_rounds`, `eraseLoop_rounds`, `insertLoop_rounds`: two numbers of rounds
  that are enough do the same, by induction;
* `rounds_bound`.
-/

import CppArt.Model.Rounds
import CppArt.Proof.ArPrefixTree
import CppArt.Proof.Refinement

namespace CppArt

open Table

variable {K V : Type} {n : ℕ} {tr : Traits K V n} {s : ArPrefixTree.State K V n} {e : Addr}
  {M : Contents n V} {k : Key n}

/-- **The child on the path of a key** has fewer values than its node. -/
theorem size_under_lt {p c : Addr} {d : ℕ} {rest : Set Addr} {h : PrefixHeader} {l : Layout}
    (rep : Rep tr s.mem p c d (under M k d) rest) (cell : s.mem.get c = some ⟨some p, .inner h l⟩)
    (le : d ≤ branch h) : size (under M k (branch h + 1)) < size (under M k d) := by
  obtain ⟨v, inV, w, inW, differ⟩ : ∃ v ∈ dom (under M k d), ∃ w ∈ dom (under M k d),
      v.letter (branch h) ≠ w.letter (branch h) := rep.broad cell
  -- one of the two keys has another byte there than `k`
  obtain ⟨u, inside, other⟩ : ∃ u ∈ dom (under M k d), k.letter (branch h) ≠ u.letter (branch h) := by
    by_cases same : k.letter (branch h) = v.letter (branch h)
    · exact ⟨w, inW, same ▸ differ⟩
    · exact ⟨v, inV, same⟩
  refine Set.ncard_lt_ncard ⟨fun x below => ?_, fun all => ?_⟩ (Set.toFinite _)
  · obtain ⟨agree, member⟩ := mem_dom_under.mp below
    exact mem_dom_under.mpr ⟨agree.mono (by omega), member⟩
  · obtain ⟨agree, -⟩ := mem_dom_under.mp (all inside)
    exact other (agree (branch h) (Nat.lt_succ_self _))

/-- **The child for a byte** has fewer values than its node. -/
theorem size_fiber_lt {p c : Addr} {d : ℕ} {m : Contents n V} {rest : Set Addr} {h : PrefixHeader}
    {l : Layout} (rep : Rep tr s.mem p c d m rest) (cell : s.mem.get c = some ⟨some p, .inner h l⟩)
    (b : Byte) : size (fiber m (branch h) b) < size m := by
  obtain ⟨v, inV, w, inW, differ⟩ : ∃ v ∈ dom m, ∃ w ∈ dom m, v.letter (branch h) ≠ w.letter (branch h) :=
    rep.broad cell
  obtain ⟨u, inside, other⟩ : ∃ u ∈ dom m, u.letter (branch h) ≠ b := by
    by_cases same : v.letter (branch h) = b
    · exact ⟨w, inW, fun same' => differ (same.trans same'.symm)⟩
    · exact ⟨v, inV, same⟩
  refine Set.ncard_lt_ncard ⟨fun x below => (mem_dom_fiber.mp below).2, fun all => ?_⟩ (Set.toFinite _)
  exact other (mem_dom_fiber.mp (all inside)).1

/-- **Enough rounds** for a subtree at a depth. -/
def Enough (m : Contents n V) (d steps : ℕ) : Prop := size m ≤ steps ∨ n < steps + d

/-- After a round, enough are left for the child. -/
theorem Enough.descend {m m' : Contents n V} {d d' steps : ℕ} (enough : Enough m d (steps + 1))
    (less : size m' < size m) (deeper : d < d') : Enough m' d' steps := by
  rcases enough with few | deep
  · exact .inl (by omega)
  · exact .inr (by omega)

section Left

variable {p c : Addr} {d steps : ℕ} {m : Contents n V} {rest : Set Addr}

/-- One round is left. -/
theorem Enough.one (rep : Rep tr s.mem p c d m rest) (le : d ≤ n) (enough : Enough m d steps) :
    ∃ t, steps = t + 1 := by
  obtain ⟨v, member⟩ := rep.nonempty
  have some := size_pos_of_mem member
  rcases enough with few | deep
  · exact ⟨steps - 1, by omega⟩
  · exact ⟨steps - 1, by omega⟩

/-- At an inner node, two rounds are left. -/
theorem Enough.two {h : PrefixHeader} {l : Layout} (rep : Rep tr s.mem p c d m rest)
    (cell : s.mem.get c = some ⟨some p, .inner h l⟩) (le : d ≤ branch h) (bound : branch h < n)
    (enough : Enough m d steps) : ∃ t, steps = t + 2 := by
  have several : 1 < size m :=
    Set.one_lt_ncard_iff_nontrivial.mpr (HeaderSpec.broad_nontrivial (rep.broad cell))
  rcases enough with few | deep
  · exact ⟨steps - 2, by omega⟩
  · exact ⟨steps - 2, by omega⟩

end Left

/-! ### The loops -/

/-- **The loop of `find`** may pass a prefix that is not the key's, so it is followed in the tree. -/
theorem findLoop_rounds (stateless : s.tree.keyTransform = tr.defaultTransform) :
    ∀ (steps : ℕ) {p a : Addr} {d : ℕ} {m : Contents n V} {own : Set Addr}, Rep tr s.mem p a d m own →
      d ≤ n → Enough m d steps → findLoop tr k steps d (some a) s = (m k).elim (endIt s) fun entry =>
        .ok entry.1 s
  | steps, p, a, d, m, own, rep, le, enough => by
      have all := findLoop_spec (k := k) stateless rep (n + 1) (by omega)
      obtain ⟨steps, rfl⟩ := enough.one rep le
      rw [← all, findLoop, findLoop, if_pos (Nat.lt_succ_of_le le), if_pos (Nat.lt_succ_of_le le)]
      have kept := rep
      cases rep with
      | leaf cell =>
          rw [Exec.bind_of_ok (isLeaf_leaf cell), Exec.bind_of_ok (isLeaf_leaf cell), if_pos rfl, if_pos rfl]
      | @inner _ _ _ _ h l sub cell wf fits bound shared describes broad bare kid apart disjoint =>
          obtain ⟨v, member⟩ := kept.nonempty
          have deeper : d ≤ branch h := HeaderSpec.depth_le (describes v member)
          rw [Exec.bind_of_ok (isLeaf_inner cell), Exec.bind_of_ok (isLeaf_inner cell),
            if_neg Bool.false_ne_true, if_neg Bool.false_ne_true]
          rcases LawfulVariant.passStored_spec k cell bound describes ⟨v, member⟩ with run | ⟨run, -⟩
          · rw [Exec.bind_of_ok run, Exec.bind_of_ok run]
            simp only []
            rw [Exec.bind_of_ok (chunkAt_ok k bound s), Exec.bind_of_ok (chunkAt_ok k bound s),
              Exec.bind_of_ok (findChild_ok cell wf _), Exec.bind_of_ok (findChild_ok cell wf _)]
            rcases slot : l.child (k.letter (branch h)) with _ | c
            · obtain ⟨t, same⟩ := enough.two kept cell deeper bound
              rw [findLoop_none (by omega) (by omega), findLoop_none (by omega) (by omega)]
            · rw [findLoop_rounds stateless steps (kid _ c slot) (by omega)
                (enough.descend (size_fiber_lt kept cell _) (by omega)),
                findLoop_spec stateless (kid _ c slot) n (by omega)]
          · rw [Exec.bind_of_ok run, Exec.bind_of_ok run]

/-- **The loop of `lower_bound` and `upper_bound`.** -/
theorem boundLoop_rounds (accept : Ordering → Bool) : ∀ (a b : ℕ) {p c : Addr} {prev : Option Addr}
    {d : ℕ} {own' rest : Set Addr}, Ctx tr s.mem s.tree.dummyNode e s.tree.root k M (dom M) p c d own' →
    Rep tr s.mem p c d (under M k d) rest → Disjoint own' rest → Enough (under M k d) d a → Enough (under M k d) d b →
    boundLoop tr accept k a d (some c) prev s = boundLoop tr accept k b d (some c) prev s
  | a, b, p, c, prev, d, own', rest, ctx, rep, clear, enough, enough' => by
      obtain ⟨a, rfl⟩ := enough.one rep ctx.depth_le
      obtain ⟨b, rfl⟩ := enough'.one rep ctx.depth_le
      rw [boundLoop, boundLoop, if_pos (Nat.lt_succ_of_le ctx.depth_le),
        if_pos (Nat.lt_succ_of_le ctx.depth_le)]
      simp only []
      rcases rep.inspect with ⟨v, cell, table, rfl⟩ | ⟨h, l, cell, wf, bound, le, shared, describes⟩
      · rw [Exec.bind_of_ok (isLeaf_leaf cell), Exec.bind_of_ok (isLeaf_leaf cell), if_pos rfl, if_pos rfl]
      · rw [Exec.bind_of_ok (isLeaf_inner cell), Exec.bind_of_ok (isLeaf_inner cell),
          if_neg Bool.false_ne_true, if_neg Bool.false_ne_true]
        rcases LawfulVariant.pass_spec rep cell fun v member => (mem_dom_under.mp member).1 with
          ⟨run, sharedK⟩ | ⟨run, apart⟩
        · rw [Exec.bind_of_ok run, Exec.bind_of_ok run]
          simp only []
          rw [Exec.bind_of_ok (chunkAt_ok k bound s), Exec.bind_of_ok (chunkAt_ok k bound s),
            Exec.bind_of_ok (findChild_ok cell wf _), Exec.bind_of_ok (findChild_ok cell wf _)]
          rcases slot : l.child (k.letter (branch h)) with _ | c'
          · obtain ⟨a', same⟩ := enough.two rep cell le bound
            obtain ⟨b', same'⟩ := enough'.two rep cell le bound
            cases Nat.succ.inj same
            cases Nat.succ.inj same'
            rw [boundLoop, boundLoop]
          · obtain ⟨own₁, rest₁, ctx₁, rep₁, clear₁, -⟩ := ctx.descend rep clear cell sharedK slot
            exact boundLoop_rounds accept a b ctx₁ rep₁ clear₁ (enough.descend (size_under_lt rep cell le) (by omega))
              (enough'.descend (size_under_lt rep cell le) (by omega))
        · rw [Exec.bind_of_ok run, Exec.bind_of_ok run]

/-- **The loop of `erase_unique`**, from an inner node. -/
theorem eraseLoop_rounds : ∀ (a b : ℕ) {p c : Addr} {d : ℕ} {h : PrefixHeader} {l : Layout}
    {own' rest : Set Addr}, Ctx tr s.mem s.tree.dummyNode e s.tree.root k M (dom M) p c d own' →
    Rep tr s.mem p c d (under M k d) rest → Disjoint own' rest →
    s.mem.get c = some ⟨some p, .inner h l⟩ → Enough (under M k d) d (a + 1) → Enough (under M k d) d (b + 1) →
    eraseLoop tr k a d c s = eraseLoop tr k b d c s
  | a, b, p, c, d, h, l, own', rest, ctx, rep, clear, cell, enough, enough' => by
      rcases rep.inspect with ⟨v, cell', -, -⟩ | ⟨h', l', cell', wf, bound, le, -, describes⟩
      · rw [cell] at cell'
        cases cell'
      · rw [cell] at cell'
        cases cell'
        obtain ⟨a', same⟩ := enough.two rep cell le bound
        obtain ⟨b', same'⟩ := enough'.two rep cell le bound
        cases Nat.succ.inj same
        cases Nat.succ.inj same'
        rw [eraseLoop, eraseLoop, if_pos (le.trans_lt bound), if_pos (le.trans_lt bound)]
        rcases LawfulVariant.pass_spec rep cell fun v member => (mem_dom_under.mp member).1 with
          ⟨run, sharedK⟩ | ⟨run, apart⟩
        · rw [Exec.bind_of_ok run, Exec.bind_of_ok run]
          simp only []
          rw [Exec.bind_of_ok (chunkAt_ok k bound s), Exec.bind_of_ok (chunkAt_ok k bound s),
            Exec.bind_of_ok (findChild_ok cell wf _), Exec.bind_of_ok (findChild_ok cell wf _)]
          rcases slot : l.child (k.letter (branch h)) with _ | c'
          · rfl
          · obtain ⟨own₁, rest₁, ctx₁, rep₁, clear₁, -⟩ := ctx.descend rep clear cell sharedK slot
            simp only []
            rcases rep₁.inspect with ⟨v, leaf, -, -⟩ | ⟨h₁, l₁, inner, -⟩
            · rw [Exec.bind_of_ok (isLeaf_leaf leaf), Exec.bind_of_ok (isLeaf_leaf leaf), if_pos rfl, if_pos rfl]
            · rw [Exec.bind_of_ok (isLeaf_inner inner), Exec.bind_of_ok (isLeaf_inner inner),
                if_neg Bool.false_ne_true, if_neg Bool.false_ne_true]
              exact eraseLoop_rounds _ _ ctx₁ rep₁ clear₁ inner (enough.descend (size_under_lt rep cell le) (by omega))
                (enough'.descend (size_under_lt rep cell le) (by omega))
        · rw [Exec.bind_of_ok run, Exec.bind_of_ok run]

/-- **The loop of `insert_unique` and `get_insert_unique_pos`.** -/
theorem insertLoop_rounds {α : Type} {limit : ℕ} {duplicate : Addr → Run PrefixHeader K V n α}
    {place : Addr → ℤ → Run PrefixHeader K V n α} (fits : n ≤ 65536) (calm : s.mem.failAt = none) :
    ∀ (a b : ℕ) {p c prev : Addr} {d : ℕ} {own rest : Set Addr},
      Ctx tr s.mem s.tree.dummyNode e s.tree.root k M (dom M) p c d own →
      Rep tr s.mem p c d (under M k d) rest → Disjoint own rest → Enough (under M k d) d a → Enough (under M k d) d b →
      insertLoop tr limit k duplicate place a d (some c) prev s
        = insertLoop tr limit k duplicate place b d (some c) prev s
  | a, b, p, c, prev, d, own, rest, ctx, rep, clear, enough, enough' => by
      obtain ⟨a, rfl⟩ := enough.one rep ctx.depth_le
      obtain ⟨b, rfl⟩ := enough'.one rep ctx.depth_le
      rw [insertLoop, insertLoop, if_pos (Nat.lt_succ_of_le ctx.depth_le),
        if_pos (Nat.lt_succ_of_le ctx.depth_le)]
      simp only []
      rcases rep.inspect with ⟨v, cell, table, rfl⟩ | ⟨h, l, cell, wf, bound, le, shared, describes⟩
      · rw [Exec.bind_of_ok (isLeaf_leaf cell), Exec.bind_of_ok (isLeaf_leaf cell), if_pos rfl, if_pos rfl]
      · rw [Exec.bind_of_ok (isLeaf_inner cell), Exec.bind_of_ok (isLeaf_inner cell),
          if_neg Bool.false_ne_true, if_neg Bool.false_ne_true]
        obtain ⟨a', same⟩ := enough.two rep cell le bound
        obtain ⟨b', same'⟩ := enough'.two rep cell le bound
        cases Nat.succ.inj same
        cases Nat.succ.inj same'
        rcases LawfulVariant.enter_spec fits ctx rep clear cell calm with
          ⟨run, sharedK⟩ | ⟨q, r, s', own', run, opened, -⟩
        · rw [Exec.bind_of_ok run, Exec.bind_of_ok run]
          simp only []
          rw [Exec.bind_of_ok (chunkAt_ok k bound s), Exec.bind_of_ok (chunkAt_ok k bound s),
            Exec.bind_of_ok (findChild_ok cell wf _), Exec.bind_of_ok (findChild_ok cell wf _)]
          rcases slot : l.child (k.letter (branch h)) with _ | c'
          · rw [insertLoop, insertLoop]
          · obtain ⟨own₁, rest₁, ctx₁, rep₁, clear₁, -⟩ := ctx.descend rep clear cell sharedK slot
            exact insertLoop_rounds fits calm _ _ ctx₁ rep₁ clear₁ (enough.descend (size_under_lt rep cell le) (by omega))
              (enough'.descend (size_under_lt rep cell le) (by omega))
        · -- the node that has been opened has no child for the key
          obtain @⟨p', q, d', outerOwn, h', l', sub, outer, node, missing, vacant, room, broad, clear'⟩ :=
            opened
          rw [Exec.bind_of_ok run, Exec.bind_of_ok run]
          simp only []
          rw [Exec.bind_of_ok (chunkAt_ok k node.bound s'), Exec.bind_of_ok (chunkAt_ok k node.bound s'),
            Exec.bind_of_ok (findChild_ok node.cell node.wf _),
            Exec.bind_of_ok (findChild_ok node.cell node.wf _), missing, insertLoop, insertLoop]

/-! ### Result -/

/-- The root has enough rounds. -/
theorem Holds.enough {own : Set Addr} (holds : Holds tr s e M own) (k : Key n) {steps : ℕ}
    (rounds : min (n + 1) s.tree.count ≤ steps) : Enough (under M k 0) 0 steps := by
  rw [under_zero, Enough, ← holds.count]
  rcases min_le_iff.mp rounds with deep | few
  · exact .inr (by omega)
  · exact .inl few

theorem Holds.endsWithin (fits : n ≤ 65536) {own : Set Addr} (holds : Holds tr s e M own) :
    EndsWithin tr s (min (n + 1) s.tree.count) where
  find r k steps root rounds := by
    obtain ⟨rest, ctx, rep, clear, -⟩ := holds.path root (s.tree.keyTransform k)
    unfold find
    rw [Exec.bind_of_ok (this_apply s), root,
      findLoop_rounds holds.stateless steps rep (Nat.zero_le n) (holds.enough _ rounds)]
    exact (findLoop_spec holds.stateless rep (n + 1) (by omega)).symm
  bound r accept k steps root rounds := by
    obtain ⟨rest, ctx, rep, clear, -⟩ := holds.path root (s.tree.keyTransform k)
    unfold bound
    rw [Exec.bind_of_ok (this_apply s), root]
    exact boundLoop_rounds accept steps (n + 1) ctx rep clear (holds.enough _ rounds) (.inr (by omega))
  erase r k steps root inner rounds := by
    obtain ⟨rest, ctx, rep, clear, -⟩ := holds.path root (s.tree.keyTransform k)
    rcases rep.inspect with ⟨v, cell, -, -⟩ | ⟨h, l, cell, -⟩
    · cases inner.symm.trans (isLeaf_leaf cell)
    · unfold eraseUnique
      rw [Exec.bind_of_ok (this_apply s), root]
      simp only []
      rw [Exec.bind_of_ok (isLeaf_inner cell), if_neg Bool.false_ne_true]
      exact eraseLoop_rounds steps n ctx rep clear cell (holds.enough _ rounds) (.inr (by omega))
  insert r x steps root rounds _ limit duplicate place previous := by
    obtain ⟨rest, ctx, rep, clear, -⟩ := holds.path root (s.tree.keyTransform (tr.keyOfValue x))
    exact insertLoop_rounds fits holds.calm steps (n + 1) ctx rep clear (holds.enough _ rounds)
      (.inr (by omega))

/-- **The loops of an `ar_prefix_tree` take no more rounds than there are elements**, and no more than the
key has bytes and one. -/
theorem rounds_bound (fits : n ≤ 65536) (tr : Traits K V n) (s : ArPrefixTree.State K V n)
    (m : Table Byte n V) (history : History tr s m) : EndsWithin tr s (min (n + 1) s.tree.count) := by
  obtain ⟨e, M, own, holds, -⟩ := history.holds fits
  exact holds.endsWithin fits

/-- Two keys of a hundred bytes. -/
theorem rounds_bound_pair :
    ∃ s, insertAll (Traits.identity 100) [⟨Vector.replicate 100 1⟩, ⟨Vector.replicate 100 2⟩]
        (blankState PrefixHeader (Traits.identity 100)) = .ok ⟨⟩ s ∧
      EndsWithin (Traits.identity 100) s (min 101 s.tree.count) := by
  have fits : 100 ≤ 65536 := by decide
  obtain ⟨s, run, history⟩ := insertAll_history (H := PrefixHeader) fits (Traits.identity 100)
    [⟨Vector.replicate 100 1⟩, ⟨Vector.replicate 100 2⟩]
  exact ⟨s, run, rounds_bound fits _ s _ history⟩

end CppArt
