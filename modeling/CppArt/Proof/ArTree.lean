/-
**The laws of `ar_tree`.**

The header of a node is its depth, which is the number of bytes above it, and there is a node wherever
two stored keys share a path.

* `tiebreak_spec`: a leaf in the way gives way to a chain of nodes with one child, down to the first
  byte where the keys differ (induction over the loop; the hole moves down the chain);
* `hoist_spec`: a leaf that is alone below its parent moves up, and the parents that have lost their
  other key are deleted, up to the first one with another child (induction over the loop; the hole
  moves up the path).
-/

import CppArt.Proof.Laws
import CppArt.Model.ArTree

namespace CppArt

open Table

variable {K V : Type} {n : ℕ} {tr : Traits K V n} {k : Key n} {M : Contents n V}

instance : HeaderSpec DepthHeader where
  Admits _ := True
  Describes h d _ := h.depth = d
  Broad _ S := S.Nontrivial
  depth_le same := same.ge
  describes_congr _ same := same
  broad_mono sub several := several.mono sub
  broad_nontrivial several := several
  not_broad describes _ le lt several := by
    obtain ⟨v, member⟩ := several.nonempty
    exact absurd (le.trans_lt lt) (describes v member).not_gt

namespace ArTree

/-! ### A leaf in the way -/

/-- The node for the existing leaf and a new one: both keys are below it. -/
theorem pair_nontrivial {w : Key n} {d : ℕ} (member : w ∈ dom M) (agree : Word.Agree d k w)
    (differ : k ≠ w) : {v | Word.Agree d k v ∧ v ∈ insert k (dom M)}.Nontrivial :=
  ⟨k, ⟨Word.Agree.refl d k, Or.inl rfl⟩, w, ⟨agree, Or.inr member⟩, differ⟩

/-- **The loop that searches the first difference**, at byte `j` and the node for it. -/
theorem tiebreak_spec {c e : Addr} {v : V} {r : ℕ} (bound : r < n)
    (agree : Word.Agree r k (tr.keyOf v)) (letter : k.letter r ≠ (tr.keyOf v).letter r)
    (entry : M (tr.keyOf v) = some (c, v)) :
    ∀ (steps : ℕ) {s : ArTree.State K V n} {p q : Addr} {j : ℕ} {own : Set Addr}, r < steps + j →
      j ≤ r → under M k j = single (tr.keyOf v) (c, v) → s.mem.failAt = none →
      Ctx tr s.mem s.tree.dummyNode e s.tree.root k M (insert k (dom M)) p q j own →
      s.mem.get q = some ⟨some p, .inner ⟨j⟩ (.oneWay ((tr.keyOf v).letter j) c)⟩ →
      s.mem.get c = some ⟨some q, .leaf v⟩ → q ∉ own → c ∉ own →
      ∃ q' s' own', tiebreak c (tr.keyOf v) k steps j q s = .ok (q', r) s' ∧
        Opened tr s' e k M q' r own' ∧ s.Frame s' (own ∪ {q, c}) ∧
        Memory.Renews s.mem s'.mem (own ∪ {q, c}) own'
  | 0, s, p, q, j, own, enough, le, alone, calm, ctx, cell, leaf, offQ, offC => by omega
  | steps + 1, s, p, q, j, own, enough, le, alone, calm, ctx, cell, leaf, offQ, offC => by
      have differ : k ≠ tr.keyOf v := fun same => letter (congrArg (fun w => Word.letter w r) same)
      have member : tr.keyOf v ∈ dom M := mem_dom_of_eq_some entry
      have only : ∀ u ∈ dom (under M k j), u = tr.keyOf v := by
        rw [alone, dom_single]
        exact fun u inside => inside
      have apart : q ≠ c := by
        rintro rfl
        rw [cell] at leaf
        cases leaf
      have broad : Broad DepthHeader j {v | Word.Agree j k v ∧ v ∈ insert k (dom M)} :=
        pair_nontrivial member (agree.mono le) differ
      obtain ⟨wf, count, children⟩ := Layout.oneWay_spec ((tr.keyOf v).letter j) c
      rw [tiebreak, Exec.bind_of_ok (chunkAt_ok (tr.keyOf v) (le.trans_lt bound) s),
        Exec.bind_of_ok (chunkAt_ok k (le.trans_lt bound) s)]
      by_cases same : (tr.keyOf v).letter j = k.letter j
      · -- the keys still agree: one more node with one child
        have less : j < r := by
          refine lt_of_le_of_ne le ?_
          rintro rfl
          exact letter same.symm
        obtain ⟨mem₁, run, node₁, leaf₁, next₁, calm₁, kept₁⟩ := newOneWay_spec leaf calm
          ((tr.keyOf v).letter (j + 1)) (⟨j + 1⟩ : DepthHeader)
        have cell₁ := (kept₁ q apart (Memory.lt_next_of_get cell)).trans cell
        have there : (Layout.oneWay ((tr.keyOf v).letter j) c).child ((tr.keyOf v).letter j) = some c := by
          rw [children, if_pos rfl]
        obtain ⟨l', redirect, wf', type, count', children'⟩ :=
          Layout.updateChildPtr_spec wf s.mem.next there
        let mem₂ := mem₁.set q ⟨some p, .inner ⟨j⟩ l'⟩
        have fresh : ∀ x, x < s.mem.next → x ≠ s.mem.next := fun x lt => lt.ne
        have kept : ∀ x, x ≠ q → x ≠ c → x < s.mem.next → mem₂.get x = s.mem.get x :=
          fun x notQ notC lt => (Memory.set_get_of_ne _ _ notQ).trans (kept₁ x notC lt)
        have newQ : s.mem.next ≠ q := (Memory.lt_next_of_get cell).ne'
        have children'' : ∀ b, l'.child b = if b = k.letter j then some s.mem.next else none := by
          intro b
          rw [children', children, ← same]
          split_ifs <;> rfl
        have node : PathNode tr mem₂ k M p q j (⟨j⟩ : DepthHeader) l' fun _ => ∅ :=
          .through (Memory.set_get_self cell₁ _) wf' (le.trans_lt bound) rfl children'' fun u inside =>
            only u inside ▸ agree.mono less
        have clear : Disjoint own (around q fun _ => ∅) := by
          simpa [around] using offQ
        have fits : l'.Fits l'.count := by
          refine Layout.Fits.of_getType ?_ type
          rw [count', count]
          exact ⟨Nat.one_pos, (by decide : 1 ≤ 4), fun different => absurd rfl different⟩
        have older : ∀ x ∈ own, x < s.mem.next := fun x inside => ctx.lt_next inside
        have ctx' : Ctx tr mem₂ s.tree.dummyNode e s.tree.root k M (insert k (dom M)) q s.mem.next
            (j + 1) (own ∪ around q fun _ => ∅) :=
          .step (ctx.frame fun x inside => kept x (fun eq => offQ (eq ▸ inside))
            (fun eq => offC (eq ▸ inside)) (older x inside)) node (by
              rw [children'']; exact if_pos rfl) fits broad clear
        have alone' : under M k (j + 1) = single (tr.keyOf v) (c, v) := by
          refine eq_single_of_forall ?_ fun u inside => only u ?_
          · rw [under_of_agree (agree.mono less), entry]
          · have split := mem_dom_under.mp inside
            exact mem_dom_under.mpr ⟨split.1.mono (Nat.le_succ j), split.2⟩
        have offNew : s.mem.next ∉ own ∪ around q fun _ => ∅ := by
          rintro (inside | eq | inside)
          · exact absurd (older _ inside) (lt_irrefl _)
          · exact newQ eq
          · simp at inside
        have offC' : c ∉ own ∪ around q fun _ => ∅ := by
          rintro (inside | eq | inside)
          · exact offC inside
          · exact apart eq.symm
          · simp at inside
        obtain ⟨q', s', own', rest, opened, frame, renews⟩ := tiebreak_spec bound agree letter entry steps
          (s := s.withMem mem₂) (by omega) less alone' calm₁ ctx'
          ((Memory.set_get_of_ne _ _ newQ).trans node₁)
          ((Memory.set_get_of_ne _ _ apart.symm).trans leaf₁) offNew offC'
        have within : ∀ x ∈ (own ∪ around q fun _ => ∅) ∪ {s.mem.next, c},
            x ∈ own ∪ {q, c} ∨ s.mem.next ≤ x := by
          rintro x ((inside | rfl | inside) | rfl | rfl)
          · exact .inl (Or.inl inside)
          · exact .inl (Or.inr (Or.inl rfl))
          · simp at inside
          · exact .inr le_rfl
          · exact .inl (Or.inr (Or.inr rfl))
        have first : s.Frame (s.withMem mem₂) (own ∪ {q, c}) := by
          refine ⟨⟨next₁ ▸ Nat.le_succ _, calm₁.trans calm.symm, fun x outside lt => ?_⟩, rfl, rfl, rfl⟩
          exact kept x (fun eq => outside (Or.inr (Or.inl eq))) (fun eq => outside (Or.inr (Or.inr eq))) lt
        have fresh : Memory.Renews s.mem mem₂ (own ∪ {q, c})
            ((own ∪ around q fun _ => ∅) ∪ {s.mem.next, c}) := by
          refine ⟨within, fun x inside live => ?_⟩
          rcases inside with (inside | rfl | rfl) | beyond
          · exact .inl (.inl inside)
          · exact .inl (.inr (Set.mem_insert x _))
          · exact .inr (.inr rfl)
          · refine .inr (.inl ?_)
            by_contra other
            have lt : s.mem.next < x := lt_of_le_of_ne beyond fun same => other same.symm
            exact live (mem₂.bounded x (next₁.trans_le lt))
        refine ⟨q', s', own', ?_, opened, first.trans frame within,
          fresh.trans renews frame.keeps first.keeps.next_le⟩
        · rw [if_pos same, Exec.bind_of_ok (chunkAt_ok (tr.keyOf v) (by omega) s),
            Exec.bind_of_ok run]
          exact (Exec.bind_of_ok (replaceChild_inner (s := s.withMem mem₁) cell₁ redirect) _).trans rest
      · -- the first difference
        obtain rfl : j = r := by
          by_contra other
          exact same (agree j (lt_of_le_of_ne le other)).symm
        have rep : Rep tr s.mem q c (j + 1) (under M k j) {c} := by
          rw [alone]
          exact .leaf leaf bound
        have clear : Disjoint own (insert q {c}) := by
          rw [Set.disjoint_insert_right, Set.disjoint_singleton_right]
          exact ⟨offQ, offC⟩
        refine ⟨q, s, own ∪ insert q {c}, by rw [if_neg same]; rfl, ?_, St.Frame.refl s _,
          Memory.Renews.refl _ _⟩
        exact .above (h := (⟨j⟩ : DepthHeader)) ctx cell bound rfl same
          (fun u inside => by rw [only u inside]; exact ⟨agree, rfl⟩) rep broad clear apart

/-- **A leaf with another key is replaced** by a chain of nodes, down to the first difference. -/
theorem splitLeaf_spec {s : ArTree.State K V n} {p c e : Addr} {v : V} {d : ℕ} {own : Set Addr}
    {limit : ℕ} (ctx : Ctx tr s.mem s.tree.dummyNode e s.tree.root k M (dom M) p c d own)
    (cell : s.mem.get c = some ⟨some p, .leaf v⟩) (off : c ∉ own)
    (alone : under M k d = single (tr.keyOf v) (c, v)) (differ : k ≠ tr.keyOf v)
    (enough : n ≤ limit) (calm : s.mem.failAt = none) :
    ∃ q r s' own', splitLeaf limit c (tr.keyOf v) k d s = .ok (q, r) s' ∧
      Opened tr s' e k M q r own' ∧ s.Frame s' (own ∪ {c}) ∧ Memory.Renews s.mem s'.mem (own ∪ {c}) own' := by
  have below : tr.keyOf v ∈ dom (under M k d) := by
    rw [alone, dom_single]
    rfl
  obtain ⟨agreeD, member⟩ := mem_dom_under.mp below
  have entry : M (tr.keyOf v) = some (c, v) := by
    rw [← under_of_agree (m := M) agreeD, alone, single_self]
  obtain ⟨r, ge, bound, agree, letter⟩ := Word.exists_first_difference_from agreeD differ
  obtain ⟨s₂, run, ctx₂, node₂, leaf₂, frame₂, next₂⟩ := raise_spec ctx cell off calm agreeD
    ((tr.keyOf v).letter d) (⟨d⟩ : DepthHeader)
  have fresh : s.mem.next ∉ own := fun inside => absurd (ctx.lt_next inside) (lt_irrefl _)
  obtain ⟨q', s', own', rest, opened, frame, renews⟩ := tiebreak_spec bound agree letter entry
    (limit - d) (by omega) ge alone (frame₂.keeps.failAt.trans calm) ctx₂ node₂ leaf₂ fresh off
  have within : ∀ x ∈ own ∪ {s.mem.next, c}, x ∈ own ∪ {c} ∨ s.mem.next ≤ x := by
    rintro x (inside | rfl | rfl)
    · exact .inl (Or.inl inside)
    · exact .inr le_rfl
    · exact .inl (Or.inr rfl)
  have fresh₂ : Memory.Renews s.mem s₂.mem (own ∪ {c}) (own ∪ {s.mem.next, c}) := by
    have both := Memory.Renews.of_next_succ (own ∪ {c}) next₂
    rwa [Set.union_assoc, Set.singleton_union, Set.pair_comm] at both
  refine ⟨q', r, s', own', ?_, opened, frame₂.trans frame within,
    fresh₂.trans renews frame.keeps frame₂.keeps.next_le⟩
  unfold splitLeaf
  rw [Exec.bind_of_ok (chunkAt_ok (tr.keyOf v) (ge.trans_lt bound) s)]
  exact (run _).trans rest

/-! ### Hoisting a leaf -/

/-- A node whose only child is on the path of `k` has no other stored keys below it. -/
theorem under_of_count_one {mem : Memory (Cell DepthHeader V)} {p a c : Addr} {d : ℕ}
    {h : DepthHeader} {l : Layout} {sub : Byte → Set Addr} (node : PathNode tr mem k M p a d h l sub)
    (slot : l.child (k.letter (branch h)) = some c) (one : l.count ≤ 1) :
    ∀ u ∈ dom (under M k d), u ∈ dom (under M k (branch h + 1)) := by
  intro u inside
  have agree := node.shared u inside
  have member := (mem_dom_under.mp inside).2
  refine mem_dom_under.mpr ⟨Word.agree_succ.mpr ⟨agree, ?_⟩, member⟩
  by_contra other
  have present : u ∈ dom (fiber (under M k d) (branch h) (u.letter (branch h))) :=
    mem_dom_fiber.mpr ⟨rfl, inside⟩
  rcases child : l.child (u.letter (branch h)) with _ | c'
  · rw [(node.bare _ (Ne.symm other) child).1, dom_empty] at present
    exact present
  · exact other (Layout.eq_of_count_one node.wf
      (le_antisymm one (Layout.count_pos_of_child node.wf slot)) (Layout.mem_bytes_of_child slot)
      (Layout.mem_bytes_of_child child))

/-- **A leaf on its way up**: it hangs below the parent of the hole, and the stored keys below the hole
are its own and the one that has been erased. -/
structure Hoisted (tr : Traits K V n) (s : ArTree.State K V n) (e : Addr) (k : Key n)
    (M : Contents n V) (c : Addr) (v : V) (p x : Addr) (d : ℕ) (own : Set Addr) : Prop where
  ctx : Ctx tr s.mem s.tree.dummyNode e s.tree.root k M (dom M) p x d own
  leaf : s.mem.get c = some ⟨some p, .leaf v⟩
  off : c ∉ own
  agree : Word.Agree d k (tr.keyOf v)
  only : ∀ u ∈ dom (under M k d), u = k ∨ u = tr.keyOf v

section Hoist

variable {s : ArTree.State K V n} {c e p x : Addr} {v : V} {d t : ℕ} {own : Set Addr} {depth j : ℤ}

/-- The parent is the sentinel. -/
theorem hoist_sentinel (sentinel : s.mem.get s.tree.dummyNode
      = some ⟨some s.tree.dummyNode, .dummy s.tree.root e⟩)
    (leaf : s.mem.get c = some ⟨some s.tree.dummyNode, .leaf v⟩) (index : -1 ≤ depth - j) :
    hoist k depth (t + 1) c j s = .ok (true, j) s := by
  have unchanged : s.mem.set c ⟨some s.tree.dummyNode, .leaf v⟩ = s.mem := by
    refine Memory.ext (funext fun y => ?_) rfl rfl
    by_cases same : y = c
    · rw [same, Memory.set_get_self leaf, leaf]
    · exact Memory.set_get_of_ne _ _ same
  rw [hoist, Exec.bind_of_ok (isLeaf_leaf leaf), if_neg (by decide), Exec.bind_of_ok (parentOf_ok leaf)]
  simp only [deref_some, Exec.pure_bind_apply]
  rw [Exec.bind_of_ok (sizeOf_dummy sentinel), if_pos ⟨le_rfl, index⟩, Exec.bind_of_ok (this_apply s),
    Exec.bind_of_ok (getType_dummy sentinel), if_pos rfl, Exec.bind_of_ok (setParent_ok leaf _),
    unchanged]
  rfl

/-- The parent has another child. -/
theorem hoist_stop {h : DepthHeader} {l : Layout} {q : Option Addr}
    (cell : s.mem.get p = some ⟨q, .inner h l⟩) (leaf : s.mem.get c = some ⟨some p, .leaf v⟩)
    (two : ¬ l.count ≤ 1) : hoist k depth (t + 1) c j s = .ok (false, j) s := by
  rw [hoist, Exec.bind_of_ok (isLeaf_leaf leaf), if_neg (by decide), Exec.bind_of_ok (parentOf_ok leaf)]
  simp only [deref_some, Exec.pure_bind_apply]
  rw [Exec.bind_of_ok (sizeOf_inner cell), if_neg fun both => two both.1]
  rfl

/-- The parent has no other child: it is deleted, and the leaf hangs one level further up. -/
theorem hoist_step {p₀ : Addr} {h : DepthHeader} {l : Layout} {sub : Byte → Set Addr}
    (outer : Ctx tr s.mem s.tree.dummyNode e s.tree.root k M (dom M) p₀ p d own)
    (node : PathNode tr s.mem k M p₀ p d h l sub) (slot : l.child (k.letter (branch h)) = some x)
    (one : l.count ≤ 1) (clear : Disjoint own (around p sub))
    (leaf : s.mem.get c = some ⟨some p, .leaf v⟩) (off : c ∉ own ∪ around p sub)
    (agree : Word.Agree (branch h + 1) k (tr.keyOf v))
    (only : ∀ u ∈ dom (under M k (branch h + 1)), u = k ∨ u = tr.keyOf v)
    (index : depth - j = d) :
    ∃ x' s', Hoisted tr s' e k M c v p₀ x' d own ∧ s.Frame s' (own ∪ around p sub ∪ {c}) ∧
      Memory.Renews s.mem s'.mem (own ∪ around p sub ∪ {c}) (own ∪ {c}) ∧
      hoist k depth (t + 1) c j s
        = if p₀ = s.tree.dummyNode then .ok (true, j) s' else hoist k depth t c (j + 1) s' := by
  have offP : p ∉ own := fun inside => Set.disjoint_left.mp clear inside (Set.mem_insert p _)
  have offC : c ∉ own := fun inside => off (Or.inl inside)
  have apart : c ≠ p := by
    rintro rfl
    exact off (Or.inr (Set.mem_insert c _))
  have older : p < s.mem.next := Memory.lt_next_of_get node.cell
  have unfolded : hoist k depth (t + 1) c j s = (do
      if (← getType p₀) = .dummyNode then do
        setParent c (some s.tree.dummyNode)
        delete p
        pure (true, j)
      else do
        let keyByte ← chunkAt k (depth - j - 1)
        replaceChild p₀ keyByte c
        setParent c (some p₀)
        delete p
        hoist k depth t c (j + 1) : Run DepthHeader K V n (Bool × ℤ)) s := by
    rw [hoist, Exec.bind_of_ok (isLeaf_leaf leaf), if_neg (by decide),
      Exec.bind_of_ok (parentOf_ok leaf)]
    simp only [deref_some, Exec.pure_bind_apply]
    rw [Exec.bind_of_ok (sizeOf_inner node.cell), if_pos ⟨one, by omega⟩,
      Exec.bind_of_ok (this_apply s), Exec.bind_of_ok (getType_inner node.cell),
      if_neg (layout_getType_ne l).2, Exec.bind_of_ok (parentOf_ok node.cell)]
    rfl
  -- what happens to the leaf and its old parent once the slot above is right
  have finish : ∀ {s₁ : ArTree.State K V n} {x' : Addr},
      Ctx tr s₁.mem s₁.tree.dummyNode e s₁.tree.root k M (dom M) p₀ x' d own → s.Frame s₁ own →
      s₁.mem.next = s.mem.next → ∃ mem', (∀ {α : Type} (rest : Run DepthHeader K V n α), (do
            setParent c (some p₀)
            delete p
            rest : Run DepthHeader K V n α) s₁ = rest (s₁.withMem mem')) ∧
        Hoisted tr (s₁.withMem mem') e k M c v p₀ x' d own ∧
        s.Frame (s₁.withMem mem') (own ∪ around p sub ∪ {c}) ∧
        Memory.Renews s.mem mem' (own ∪ around p sub ∪ {c}) (own ∪ {c}) := by
    intro s₁ x' ctx frame next
    have leaf₁ := (frame.keeps.get c offC (Memory.lt_next_of_get leaf)).trans leaf
    have cell₁ := (frame.keeps.get p offP older).trans node.cell
    let mem₂ := s₁.mem.set c ⟨some p₀, .leaf v⟩
    have cell₂ : mem₂.get p = _ := (Memory.set_get_of_ne _ _ apart.symm).trans cell₁
    refine ⟨mem₂.free p, fun rest => ?_, ⟨?_, ?_, offC, ?_, ?_⟩, ?_, ?_⟩
    · rw [Exec.bind_of_ok (setParent_ok leaf₁ _)]
      exact Exec.bind_of_ok (delete_ok (s := s₁.withMem mem₂) cell₂) _
    · refine ctx.frame fun y inside => ?_
      have notP : y ≠ p := fun same => offP (same ▸ inside)
      have notC : y ≠ c := fun same => offC (same ▸ inside)
      exact (Memory.free_get_of_ne _ notP).trans (Memory.set_get_of_ne _ _ notC)
    · exact (Memory.free_get_of_ne _ apart).trans (Memory.set_get_self leaf₁ _)
    · exact agree.mono (node.depth_le.trans (Nat.le_succ _))
    · exact fun u inside => only u (under_of_count_one node slot one u inside)
    · have wide := frame.mono (Set.subset_union_left.trans Set.subset_union_left :
        own ⊆ own ∪ around p sub ∪ {c})
      refine wide.trans ⟨?_, rfl, rfl, rfl⟩ fun y (inside : y ∈ own ∪ around p sub ∪ {c}) => .inl inside
      exact (Memory.keeps_set _ _ (Or.inr rfl)).trans (Memory.keeps_free _
        (Or.inl (Or.inr (Set.mem_insert p _)))) fun y inside => .inl inside
    · have next' : (mem₂.free p).next = s.mem.next := next
      refine (Memory.Renews.of_next _ next').drop
        (Set.union_subset_union_left _ Set.subset_union_left) fun y inside outside => ?_
      rw [node.around_eq slot one, node.hole] at inside
      rcases inside with (before | rfl | none) | rfl
      · exact absurd (Or.inl before) outside
      · exact Memory.free_get_self _ _
      · exact absurd none (Set.notMem_empty y)
      · exact absurd (Or.inr rfl) outside
  by_cases top : p₀ = s.tree.dummyNode
  · obtain ⟨mem', run, hoisted, frame, renews⟩ := finish outer (St.Frame.refl s own) rfl
    refine ⟨p, s.withMem mem', hoisted, frame, renews, ?_⟩
    rw [unfolded, top, Exec.bind_of_ok (getType_dummy outer.sentinel.2.1), if_pos rfl, if_pos rfl,
      ← top, run]
    rfl
  · obtain ⟨s₁, redirected, ctx₁, frame₁, next₁⟩ := updateChildPtr_spec outer (Word.Agree.refl d k) c
    obtain ⟨mem', run, hoisted, frame, renews⟩ :=
      finish ctx₁ (frame₁.mono outer.links_subset) next₁
    refine ⟨c, s₁.withMem mem', hoisted, frame, renews, ?_⟩
    cases outer with
    | top => exact absurd rfl top
    | @step p₁ _ _ d₁ own₁ h₁ l₁ sub₁ outer₁ node₁ slot₁ fits₁ broad₁ clear₁ =>
        have depth₁ : depth - j - 1 = (branch h₁ : ℤ) := by
          rw [index]
          push_cast
          omega
        rw [updateChildPtr_inner node₁.cell node₁.bound] at redirected
        rw [unfolded, Exec.bind_of_ok (getType_inner node₁.cell), if_neg (layout_getType_ne l₁).2,
          if_neg top, depth₁, Exec.bind_of_ok (chunkAt_ok k node₁.bound s),
          Exec.bind_of_ok redirected]
        exact run _

/-- **The inner loop of `shrink_after_erase`**: the leaf moves up to the first parent with another
child, or to the sentinel. -/
theorem hoist_spec (differ : tr.keyOf v ≠ k) :
    ∀ (steps : ℕ) (depth j : ℤ) {s : ArTree.State K V n} {p x : Addr} {d : ℕ} {own : Set Addr},
      d < steps → depth - j = d - 1 → Hoisted tr s e k M c v p x d own →
      ∃ returned j' s' p' x' d' own', hoist k depth steps c j s = .ok (returned, j') s' ∧
        Hoisted tr s' e k M c v p' x' d' own' ∧ own' ⊆ own ∧
        (∀ r < d', ∃ u ∈ dom M, u ≠ k ∧ u ≠ tr.keyOf v ∧ Word.Agree r k u) ∧
        s.Frame s' (own ∪ {c}) ∧ Memory.Renews s.mem s'.mem (own ∪ {c}) (own' ∪ {c})
  | 0, depth, j, s, p, x, d, own, enough, index, hoisted => by omega
  | steps + 1, depth, j, s, p, x, d, own, enough, index, ⟨ctx, leaf, off, agree, only⟩ => by
      cases ctx with
      | top sentinel endLeaf link =>
          exact ⟨true, j, s, _, x, 0, _, hoist_sentinel sentinel leaf (by omega),
            ⟨.top sentinel endLeaf link, leaf, off, agree, only⟩, subset_rfl,
            fun r lt => absurd lt (Nat.not_lt_zero r), St.Frame.refl s _, Memory.Renews.refl _ _⟩
      | @step p₀ _ _ d₀ own₀ h l sub outer node slot fits broad clear =>
          have depthOf : branch h = d₀ := node.describes
          by_cases one : l.count ≤ 1
          · have level : depth - j = d₀ := by omega
            obtain ⟨x', s', hoisted, frame, renews, run⟩ := hoist_step (t := steps) outer node slot one clear
              leaf off agree only level
            rw [run]
            by_cases top : p₀ = s.tree.dummyNode
            · obtain rfl : d₀ = 0 := outer.depth_eq_zero top
              exact ⟨true, j, s', p₀, x', 0, own₀, if_pos top, hoisted, Set.subset_union_left,
                fun r lt => absurd lt (Nat.not_lt_zero r), frame, renews⟩
            · rw [if_neg top]
              obtain ⟨returned, j', s'', p', x'', d', own', rest, hoisted', sub', others, frame', renews'⟩ :=
                hoist_spec differ steps depth (j + 1) (by omega) (by omega) hoisted
              refine ⟨returned, j', s'', p', x'', d', own', rest, hoisted', ?_, others, ?_,
                renews.trans renews' frame'.keeps frame.keeps.next_le⟩
              · exact sub'.trans Set.subset_union_left
              · refine frame.trans frame' fun y inside => .inl ?_
                exact inside.imp Or.inl id
          · have two : 2 ≤ l.count := by omega
            obtain ⟨b, c', other, child⟩ := Layout.exists_other node.wf two (k.letter (branch h))
            obtain ⟨u, member, agreeU, letterU⟩ := node.exists_key other child
            rw [dom_drop] at member
            refine ⟨false, j, s, p, x, branch h + 1, _, hoist_stop node.cell leaf one,
              ⟨.step outer node slot fits broad clear, leaf, off, agree, only⟩, subset_rfl,
              fun r lt => ⟨u, member.1, member.2, ?_, agreeU.mono (Nat.le_of_lt_succ lt)⟩,
              St.Frame.refl s _, Memory.Renews.refl _ _⟩
            · rintro rfl
              exact other (letterU.symm.trans (Word.agree_succ.mp agree).2.symm)

end Hoist

/-! ### Repair after an erasure -/

/-- A node that keeps two stored keys below it stays. -/
theorem close_of_nontrivial {mem : Memory (Cell DepthHeader V)} {dm e p q : Addr}
    {root : Option Addr} {d : ℕ} {own : Set Addr} {h : DepthHeader} {l : Layout}
    {sub : Byte → Set Addr} (outer : Ctx tr mem dm e root k M (dom M) p q d own)
    (node : PathNode tr mem k M p q d h l sub)
    (missing : l.child (k.letter (branch h)) = none) (fits : l.Fits l.count)
    (alone : ∀ v ∈ dom (under M k (branch h + 1)), v = k)
    (others : {u | Word.Agree d k u ∧ u ∈ dom (drop M k)}.Nontrivial)
    (clear : Disjoint own (around q sub)) :
    Whole tr mem dm e root (drop M k) (own ∪ around q sub) :=
  Vacated.close outer node missing fits alone others (fun _ _ le lt _ => others.mono
    fun _ inside => ⟨inside.1.mono (le.trans lt.le), inside.2⟩) clear

/-- The leaf that has been hoisted takes the slot of the hole. -/
theorem closeHoisted {s : ArTree.State K V n} {c e p x : Addr} {v : V} {d : ℕ} {own : Set Addr}
    (entry : M (tr.keyOf v) = some (c, v)) (differ : tr.keyOf v ≠ k)
    (hoisted : Hoisted tr s e k M c v p x d own)
    (others : ∀ r < d, ∃ u ∈ dom M, u ≠ k ∧ u ≠ tr.keyOf v ∧ Word.Agree r k u) :
    ∃ s', updateChildPtr p c k s = .ok ⟨⟩ s' ∧
      Whole tr s'.mem s'.tree.dummyNode e s'.tree.root (drop M k) (own ∪ {c}) ∧ s.Frame s' own ∧
      s'.mem.next = s.mem.next := by
  obtain ⟨ctx, leaf, off, agree, only⟩ := hoisted
  obtain ⟨s', run, ctx', frame, next⟩ := updateChildPtr_spec ctx (Word.Agree.refl d k) c
  have leaf' : s'.mem.get c = some ⟨some p, .leaf v⟩ :=
    (frame.keeps.get c (fun inside => off (ctx.links_subset inside))
      (Memory.lt_next_of_get leaf)).trans leaf
  have stays : drop M k (tr.keyOf v) = some (c, v) := (drop_of_ne M differ).trans entry
  have table : under (drop M k) k d = single (tr.keyOf v) (c, v) := by
    refine eq_single_of_forall ((under_of_agree agree).trans stays) fun u inside => ?_
    rw [under_drop, dom_drop] at inside
    exact (only u inside.1).resolve_left inside.2
  refine ⟨s', run, ctx'.closeDropped (fun r d' le lt _ => ?_) ?_
    (Set.disjoint_singleton_right.mpr off), frame.mono ctx.links_subset, next⟩
  · obtain ⟨u, member, notK, notV, agreeU⟩ := others r lt
    refine ⟨u, ⟨agreeU.mono le, ?_⟩, tr.keyOf v, ⟨agree.mono (le.trans lt.le), ?_⟩, notV⟩
    · rw [dom_drop]
      exact ⟨member, notK⟩
    · exact mem_dom_of_eq_some stays
  · rw [table]
    exact .leaf leaf' ctx.depth_le

section Loop

variable {s : ArTree.State K V n} {a : Addr} {p : Option Addr} {depth j : ℤ} {t : ℕ}

theorem shrinkLoop_stop {h : DepthHeader} {l : Layout}
    (cell : s.mem.get a = some ⟨p, .inner h l⟩) (enough : l.minSize ≤ l.count) :
    shrinkLoop k depth (t + 1) a j s = .ok a s := by
  rw [shrinkLoop, Exec.bind_of_ok (sizeOf_inner cell), Exec.bind_of_ok (minSizeOf_inner cell),
    if_neg (not_lt.mpr enough)]
  rfl

theorem shrinkLoop_leaf {v : V} (cell : s.mem.get a = some ⟨p, .leaf v⟩) :
    shrinkLoop k depth (t + 1) a j s = .ok a s := by
  rw [shrinkLoop, Exec.bind_of_ok (sizeOf_leaf cell), Exec.bind_of_ok (minSizeOf_leaf cell),
    if_neg (lt_irrefl 1)]
  rfl

/-- A node with too few children is shrunk, and what takes its place may move up. -/
theorem shrinkLoop_small {h : DepthHeader} {l : Layout} {shrunk : Addr} {changed : Bool}
    {s' : ArTree.State K V n} (cell : s.mem.get a = some ⟨p, .inner h l⟩)
    (small : l.count < l.minSize) (run : shrink a s = .ok (shrunk, changed) s') :
    shrinkLoop k depth (t + 1) a j s = (if changed then do
        let (returned, j) ← hoist k depth (levels n) shrunk j
        if returned then pure shrunk else shrinkLoop k depth t shrunk j
      else pure a : Run DepthHeader K V n Addr) s' := by
  rw [shrinkLoop, Exec.bind_of_ok (sizeOf_inner cell), Exec.bind_of_ok (minSizeOf_inner cell),
    if_pos small, Exec.bind_of_ok run]

theorem hoist_inner {h : DepthHeader} {l : Layout} (cell : s.mem.get a = some ⟨p, .inner h l⟩) :
    hoist k depth (t + 1) a j s = .ok (false, j) s := by
  rw [hoist, Exec.bind_of_ok (isLeaf_inner cell), if_pos rfl]
  rfl

/-- `fix_after_erase` once `shrink_after_erase` has returned. -/
theorem fixAfterErase_of_shrunk {h : DepthHeader} {l : Layout} {shrunk : Addr}
    {s' : ArTree.State K V n} (cell : s.mem.get a = some ⟨p, .inner h l⟩)
    (run : shrinkLoop k h.depth (levels n) a 1 s = .ok shrunk s') :
    fixAfterErase a k s = (if shrunk = a then pure () else do
      let parent ← deref (← parentOf shrunk)
      updateChildPtr parent shrunk k : Run DepthHeader K V n Unit) s' := by
  unfold fixAfterErase shrinkAfterErase
  rw [Exec.bind_of_ok (headerOf_ok cell), Exec.bind_of_ok run]

end Loop

section Fix

variable {s : ArTree.State K V n} {p q e : Addr} {h : DepthHeader} {l : Layout} {d : ℕ}
  {own : Set Addr} {sub : Byte → Set Addr} (vacated : Vacated tr s e k M p q d h l sub own)

include vacated

/-- Two children left are two stored keys left. -/
theorem others_of_two (two : 2 ≤ l.count) :
    {u | Word.Agree d k u ∧ u ∈ dom (drop M k)}.Nontrivial := by
  obtain ⟨b, c, other, child⟩ := vacated.exists_left
  obtain ⟨b', c', differ, child'⟩ := Layout.exists_other vacated.node.wf two b
  have other' : b' ≠ k.letter (branch h) := by
    rintro rfl
    rw [vacated.missing] at child'
    cases child'
  obtain ⟨u, member, agree, letter⟩ := vacated.node.exists_key other child
  obtain ⟨u', member', agree', letter'⟩ := vacated.node.exists_key other' child'
  have le := vacated.node.depth_le
  refine ⟨u, ⟨agree.mono le, member⟩, u', ⟨agree'.mono le, member'⟩, ?_⟩
  rintro rfl
  exact differ (letter'.symm.trans letter)

/-- Enough children are left. -/
theorem fix_kept (enough : l.minSize ≤ l.count) (two : 2 ≤ l.count) :
    fixAfterErase q k s = .ok ⟨⟩ s ∧
      Whole tr s.mem s.tree.dummyNode e s.tree.root (drop M k) (own ∪ around q sub) := by
  have fits : l.Fits l.count :=
    ⟨vacated.count_pos, (Nat.le_succ _).trans vacated.fits.2.1, fun _ => enough⟩
  refine ⟨?_, close_of_nontrivial vacated.outer vacated.node vacated.missing fits vacated.alone
    (others_of_two vacated two) vacated.clear⟩
  rw [fixAfterErase_of_shrunk vacated.node.cell
    (shrinkLoop_stop (t := n + 1) vacated.node.cell enough), if_pos rfl]
  rfl

/-- A larger node gives way to one of the next smaller type. -/
theorem fix_shrunk (small : l.count < l.minSize) (notFirst : l.getType ≠ .node4) :
    ∃ s', fixAfterErase q k s = .ok ⟨⟩ s' ∧
      Whole tr s'.mem s'.tree.dummyNode e s'.tree.root (drop M k) (own ∪ around s.mem.next sub) ∧
      s.Frame s' (own ∪ around q sub) ∧
      Memory.Renews s.mem s'.mem (own ∪ around q sub) (own ∪ around s.mem.next sub) := by
  have two := vacated.fits.two_le notFirst
  obtain ⟨l', mem', s', run, cell', redirected, outer', node', fits', count', children, clear', frame,
      renews⟩ := vacated.shrinkInto_spec small notFirst
  refine ⟨s', ?_, close_of_nontrivial outer' node' ((children _).trans vacated.missing) fits'
    vacated.alone (others_of_two vacated two) clear', frame, renews⟩
  have loop : shrinkLoop k h.depth (levels n) q 1 s = .ok s.mem.next (s.withMem mem') := by
    refine (shrinkLoop_small (t := n + 1) vacated.node.cell small run).trans ?_
    rw [if_pos rfl]
    refine (Exec.bind_of_ok (hoist_inner (s := s.withMem mem') (t := n + 1) cell') _).trans ?_
    exact shrinkLoop_stop (s := s.withMem mem') cell' (fits'.minSize_le (count' ▸ two))
  have fresh : s.mem.next ≠ q := (Memory.lt_next_of_get vacated.node.cell).ne'
  rw [fixAfterErase_of_shrunk vacated.node.cell loop, if_neg fresh]
  exact (Exec.bind_of_ok (parentOf_ok (s := s.withMem mem') cell') _).trans redirected

/-- A node with one inner child left stays as a node with one child. -/
theorem fix_oneWay {b : Byte} {c : Addr} {h' : DepthHeader} {l' : Layout}
    (first : l.getType = .node4) (one : l.count = 1) (child : l.child b = some c)
    (other : b ≠ k.letter (branch h)) (inner : s.mem.get c = some ⟨some q, .inner h' l'⟩) :
    fixAfterErase q k s = .ok ⟨⟩ s ∧
      Whole tr s.mem s.tree.dummyNode e s.tree.root (drop M k) (own ∪ around q sub) := by
  have small : l.count < l.minSize := (Layout.count_lt_minSize_iff first).mpr (by omega)
  have fits : l.Fits l.count :=
    ⟨vacated.count_pos, (Nat.le_succ _).trans vacated.fits.2.1, fun different => absurd first different⟩
  have others : {u | Word.Agree d k u ∧ u ∈ dom (drop M k)}.Nontrivial := by
    rw [← dom_under, vacated.under_drop_eq child one]
    exact (vacated.node.kid b other c child).broad inner
  refine ⟨?_, close_of_nontrivial vacated.outer vacated.node vacated.missing fits vacated.alone others
    vacated.clear⟩
  have run := shrink_inner vacated.node.wf vacated.node.cell first child one inner
  have loop : shrinkLoop k h.depth (levels n) q 1 s = .ok q s := by
    refine (shrinkLoop_small (t := n + 1) vacated.node.cell small run).trans ?_
    rw [if_neg Bool.false_ne_true]
    rfl
  rw [fixAfterErase_of_shrunk vacated.node.cell loop, if_pos rfl]
  rfl

/-- A node with one leaf left gives way to the leaf, which moves up. -/
theorem fix_hoisted {b : Byte} {c : Addr} {v : V} (first : l.getType = .node4) (one : l.count = 1)
    (child : l.child b = some c) (other : b ≠ k.letter (branch h)) (inside : c ∈ sub b)
    (leaf : s.mem.get c = some ⟨some q, .leaf v⟩)
    (table : fiber (under M k d) (branch h) b = single (tr.keyOf v) (c, v)) :
    ∃ s' own', fixAfterErase q k s = .ok ⟨⟩ s' ∧
      Whole tr s'.mem s'.tree.dummyNode e s'.tree.root (drop M k) own' ∧
      s.Frame s' (own ∪ around q sub) ∧
      Memory.Renews s.mem s'.mem (own ∪ around q sub) own' := by
  have small : l.count < l.minSize := (Layout.count_lt_minSize_iff first).mpr (by omega)
  have below : tr.keyOf v ∈ dom (fiber (under M k d) (branch h) b) := by
    rw [table, dom_single]
    rfl
  obtain ⟨letter, inUnder⟩ := mem_dom_fiber.mp below
  obtain ⟨agree, member⟩ := mem_dom_under.mp inUnder
  have notK : tr.keyOf v ≠ k := by
    intro same
    rw [same] at letter
    exact other letter.symm
  have entry : M (tr.keyOf v) = some (c, v) := by
    rw [← under_of_agree (m := M) agree, ← fiber_of_letter (m := under M k d) letter, table,
      single_self]
  have only : ∀ u ∈ dom (under M k d), u = k ∨ u = tr.keyOf v := by
    intro u inside
    by_cases same : u = k
    · exact .inl same
    · have rest : u ∈ dom (under (drop M k) k d) := by
        rw [under_drop, dom_drop]
        exact ⟨inside, same⟩
      rw [vacated.under_drop_eq child one, table, dom_single] at rest
      exact .inr rest
  obtain ⟨mem', run, outer', leaf', off, frame, gone, next⟩ :=
    vacated.shrinkToLeaf_spec first one child inside leaf
  have depthOf : h.depth = d := vacated.node.describes
  obtain ⟨returned, j', s₁, p', x', d', own', climb, hoisted, sub', others, frame₁, renews₁⟩ :=
    hoist_spec notK (levels n) h.depth 1 (s := s.withMem mem')
      (by have := vacated.outer.depth_le; unfold levels; omega) (by omega)
      ⟨outer', leaf', off, agree, only⟩
  obtain ⟨s₂, redirected, whole, frame₂, next₂⟩ := closeHoisted entry notK hoisted others
  have within : own ∪ {c} ⊆ own ∪ around q sub := Set.union_subset_union_right _
    (Set.singleton_subset_iff.mpr (mem_around_of_sub inside))
  have freed : Memory.Renews s.mem mem' (own ∪ around q sub) (own ∪ {c}) :=
    vacated.freed_leaf one child inside leaf gone next
  refine ⟨s₂, own' ∪ {c}, ?_, whole, ?_, ?_⟩
  · have loop : shrinkLoop k h.depth (levels n) q 1 s = .ok c s₁ := by
      refine (shrinkLoop_small (t := n + 1) vacated.node.cell small run).trans ?_
      rw [if_pos rfl]
      refine (Exec.bind_of_ok climb _).trans ?_
      cases returned with
      | true => rfl
      | false => exact shrinkLoop_leaf hoisted.leaf
    have apart : c ≠ q := fun same => vacated.node.apart b (same ▸ inside)
    rw [fixAfterErase_of_shrunk vacated.node.cell loop, if_neg apart,
      Exec.bind_of_ok (parentOf_ok hoisted.leaf)]
    exact redirected
  · refine (frame.trans (frame₁.mono within) fun y inside => .inl inside).trans
      (frame₂.mono ?_) fun y inside => .inl inside
    exact (sub'.trans Set.subset_union_left).trans within
  · exact (freed.trans renews₁ frame₁.keeps frame.keeps.next_le).trans (Memory.Renews.of_next _ next₂)
      (frame₂.keeps.mono Set.subset_union_left) (frame.keeps.next_le.trans frame₁.keeps.next_le)

/-- **`fix_after_erase`**: the tree without the key is represented again. -/
theorem fixAfterErase_spec :
    ∃ s' own', fixAfterErase q k s = .ok ⟨⟩ s' ∧
      Whole tr s'.mem s'.tree.dummyNode e s'.tree.root (drop M k) own' ∧
      s.Frame s' (own ∪ around q sub) ∧ Memory.Renews s.mem s'.mem (own ∪ around q sub) own' := by
  by_cases small : l.count < l.minSize
  · by_cases first : l.getType = .node4
    · have positive := vacated.count_pos
      have one : l.count = 1 := by
        have few := (Layout.count_lt_minSize_iff first).mp small
        omega
      obtain ⟨b, c, other, child⟩ := vacated.exists_left
      have rep := vacated.node.kid b other c child
      rcases rep.inspect with ⟨v, leaf, table, -⟩ | ⟨h', l', inner, -⟩
      · exact fix_hoisted vacated first one child other rep.top_mem leaf table
      · obtain ⟨run, whole⟩ := fix_oneWay vacated first one child other inner
        exact ⟨s, _, run, whole, St.Frame.refl s _, Memory.Renews.refl _ _⟩
    · obtain ⟨s', run, whole, frame, renews⟩ := fix_shrunk vacated small first
      exact ⟨s', _, run, whole, frame, renews⟩
  · have enough := not_lt.mp small
    obtain ⟨run, whole⟩ := fix_kept vacated enough (l.two_le_minSize.trans enough)
    exact ⟨s, _, run, whole, St.Frame.refl s _, Memory.Renews.refl _ _⟩

end Fix

end ArTree

/-- **`ar_tree` meets the laws.** -/
instance : LawfulVariant DepthHeader where
  passStored_spec {_ _ _ s _ _ h _ d S} k _ _ describes nonempty := by
    obtain ⟨v, member⟩ := nonempty
    have depth : h.depth = d := describes v member
    exact .inl (by rw [← depth]; rfl)
  pass_spec {_ _ _ _ s _ _ h _ d _ _ _} rep cell agree := by
    rcases rep.inspect with ⟨v, cell', -, -⟩ | ⟨h', l', cell', -, -, -, -, describes⟩
    · rw [cell] at cell'
      cases cell'
    · rw [cell] at cell'
      cases cell'
      obtain ⟨v, member⟩ := rep.nonempty
      have depth : h.depth = d := describes v member
      subst depth
      exact .inl ⟨rfl, agree⟩
  enter_spec {_ _ _ _ s _ _ _ h _ d _ _ _ _} _ ctx rep clear cell calm := by
    rcases rep.inspect with ⟨v, cell', -, -⟩ | ⟨h', l', cell', -, -, -, -, describes⟩
    · rw [cell] at cell'
      cases cell'
    · rw [cell] at cell'
      cases cell'
      obtain ⟨v, member⟩ := rep.nonempty
      have depth : h.depth = d := describes v member
      subst depth
      exact .inl ⟨rfl, fun v member => (mem_dom_under.mp member).1⟩
  splitLeaf_spec _ ctx cell off alone differ enough calm :=
    ArTree.splitLeaf_spec ctx cell off alone differ enough calm
  le_posLimit _ := Nat.le_succ _
  fixAfterErase_spec _ vacated := ArTree.fixAfterErase_spec vacated

end CppArt
