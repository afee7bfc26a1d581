/-
**Insertion.**

`insert_unique` and `get_insert_unique_pos` walk the same loop. It ends at the leaf of an equal key,
with nothing changed, or opens a node for the new leaf (`insertLoop_spec`, by induction over the
steps, with the hole moving down the path of the key). Putting the leaf into the opened node
(`attach_spec`) makes the table one entry larger.

* `insertUnique_spec`, `emplaceUnique_spec`: the container holds the old table, and the entry of the
  value if its key was absent; the leaf that is returned is that of the key.
-/

import CppArt.Proof.Laws

namespace CppArt

open Table

variable {H K V : Type} {n : ℕ} [Variant H] [HeaderSpec H] {tr : Traits K V n} {k : Key n}
  {M : Contents n V}

/-! ### Making room -/

/-- **A missing child of a full node.** The node is grown and the slot above redirected. -/
theorem makeRoom_spec {s : St H K V n} {p q e : Addr} {d : ℕ} {h : H} {l : Layout} {own : Set Addr}
    {sub : Byte → Set Addr}
    (outer : Ctx tr s.mem s.tree.dummyNode e s.tree.root k M (dom M) p q d own)
    (node : PathNode tr s.mem k M p q d h l sub)
    (missing : l.child (k.letter (branch h)) = none)
    (vacant : under M k (branch h + 1) = empty) (fits : l.Fits l.count)
    (broad : Broad H (branch h) (dom (under M k d))) (clear : Disjoint own (around q sub))
    (calm : s.mem.failAt = none) :
    ∃ q' s' own', makeRoom q k s = .ok q' s' ∧ Opened tr s' e k M q' (branch h) own' ∧
      s.Frame s' (own ∪ around q sub) ∧ Memory.Renews s.mem s'.mem (own ∪ around q sub) own' := by
  have broad' : Broad H (branch h) {v | Word.Agree d k v ∧ v ∈ insert k (dom M)} := by
    rw [dom_under] at broad
    exact HeaderSpec.broad_mono (fun v inside => ⟨inside.1, Or.inr inside.2⟩) broad
  have unfolded : makeRoom q k s = (if l.count = l.maxSize then (do
      let grown ← grow q
      let parent ← deref (← parentOf grown)
      updateChildPtr parent grown k
      pure grown : Run H K V n Addr) else pure q) s := by
    unfold makeRoom
    rw [Exec.bind_of_ok (sizeOf_inner node.cell), Exec.bind_of_ok (maxSizeOf_inner node.cell)]
  rw [unfolded]
  by_cases full : l.count = l.maxSize
  · obtain ⟨l', mem', grown, node', room, children, keeps, renews⟩ := grow_spec node missing full calm
    have older : ∀ x ∈ own, x < s.mem.next := fun x inside => outer.lt_next inside
    have outer' := outer.frame (keeps.same clear.symm older)
    obtain ⟨s', redirected, outer'', frame, next⟩ :=
      updateChildPtr_spec (s := s.withMem mem') outer' (Word.Agree.refl d k) s.mem.next
    have clear' := around_fresh clear older
    have node'' : PathNode tr s'.mem k M p s.mem.next d h l' sub :=
      node'.frame (frame.keeps.same (clear'.mono_left outer'.links_subset) fun x inside => by
        obtain ⟨cell, here⟩ := node'.live x inside
        exact Memory.lt_next_of_get here)
    refine ⟨s.mem.next, s', own ∪ around s.mem.next sub, ?_, ?_, ?_, ?_⟩
    · rw [if_pos full, Exec.bind_of_ok grown,
        Exec.bind_of_ok (parentOf_ok (s := s.withMem mem') node'.cell)]
      exact Exec.bind_of_ok redirected _
    · exact .intro outer''.anticipate node'' ((children _).trans missing) vacant room broad' clear'
    · have first : s.Frame (s.withMem mem') (own ∪ around q sub) :=
        ⟨keeps.mono Set.subset_union_right, rfl, rfl, rfl⟩
      exact first.trans (frame.mono outer'.links_subset) fun x inside => .inl (.inl inside)
    · exact (renews.extend own).trans (Memory.Renews.of_next _ next)
        (frame.keeps.mono (outer'.links_subset.trans Set.subset_union_left)) keeps.next_le
  · refine ⟨q, s, own ∪ around q sub, ?_, ?_, St.Frame.refl s _, Memory.Renews.refl _ _⟩
    · rw [if_neg full]
      rfl
    · have room : l.Fits (l.count + 1) := by
        obtain ⟨-, le, ge⟩ := fits
        exact ⟨Nat.succ_pos _, by omega, fun other => (ge other).trans (Nat.le_succ _)⟩
      exact .intro outer.anticipate node missing vacant room broad' clear

omit [HeaderSpec H] in
theorem makeRoom_of_lt {s : St H K V n} {q : Addr} {p : Option Addr} {h : H} {l : Layout}
    (cell : s.mem.get q = some ⟨p, .inner h l⟩) (room : l.count < l.maxSize) :
    makeRoom q k s = .ok q s := by
  unfold makeRoom
  rw [Exec.bind_of_ok (sizeOf_inner cell), Exec.bind_of_ok (maxSizeOf_inner cell), if_neg room.ne]
  rfl

/-! ### The loop -/

section Loop

variable {α : Type} {limit : ℕ} {duplicate : Addr → Run H K V n α}
  {place : Addr → ℤ → Run H K V n α}

omit [HeaderSpec H] in
/-- The step after a missing child has been found. -/
theorem insertLoop_missing {s s' : St H K V n} {q q' : Addr} {r : ℕ} (steps : ℕ) (lt : r < n)
    (room : makeRoom q k s = .ok q' s') :
    insertLoop tr limit k duplicate place (steps + 1) (r + 1) none q s = place q' r s' := by
  rw [insertLoop, if_pos (Nat.succ_lt_succ lt), Exec.bind_of_ok room]
  have index : (((r + 1 : ℕ) : ℤ) - 1) = r := by omega
  rw [index]

/-- **The loop of `insert_unique` and `get_insert_unique_pos`.** -/
theorem insertLoop_spec [LawfulVariant H] {s : St H K V n} {e : Addr} (admits : Admits H n)
    (enough : n ≤ limit)
    (stateless : s.tree.keyTransform = tr.defaultTransform) (calm : s.mem.failAt = none) :
    ∀ (steps : ℕ) {p c prev : Addr} {d : ℕ} {own rest : Set Addr}, n < steps + d →
      Ctx tr s.mem s.tree.dummyNode e s.tree.root k M (dom M) p c d own →
      Rep tr s.mem p c d (under M k d) rest → Disjoint own rest →
      (∃ it v, M k = some (it, v) ∧
        insertLoop tr limit k duplicate place steps d (some c) prev s = duplicate it s) ∨
      ∃ (q : Addr) (r : ℕ) (s' : St H K V n) (own' : Set Addr),
        insertLoop tr limit k duplicate place steps d (some c) prev s = place q r s' ∧
        Opened tr s' e k M q r own' ∧ s.Frame s' (own ∪ rest) ∧ Memory.Renews s.mem s'.mem (own ∪ rest) own'
  | 0, p, c, prev, d, own, rest, steps, ctx, rep, clear => by
      have := ctx.depth_le
      omega
  | steps + 1, p, c, prev, d, own, rest, more, ctx, rep, clear => by
      have depth := ctx.depth_le
      rw [insertLoop, if_pos (Nat.lt_succ_of_le depth)]
      rcases rep.inspect with ⟨v, cell, table, rfl⟩ | ⟨h, l, cell, wf, bound, le, shared, describes⟩
      · -- an existing leaf
        simp only []
        rw [Exec.bind_of_ok (isLeaf_leaf cell), if_pos rfl, Exec.bind_of_ok (leafValue_ok cell),
          Exec.bind_of_ok (this_apply s), stateless]
        by_cases same : k = tr.keyOf v
        · left
          have accept : k = tr.defaultTransform (tr.keyOfValue v) := same
          refine ⟨c, v, ?_, by rw [if_pos accept]⟩
          rw [← under_self M k d, table, ← same, single_self]
        · right
          have off : c ∉ own := Set.disjoint_singleton_right.mp clear
          obtain ⟨q, r, s', own', run, opened, frame, renews⟩ :=
            LawfulVariant.splitLeaf_spec admits ctx cell off table same enough calm
          refine ⟨q, r, s', own', ?_, opened, frame, renews⟩
          have differ : k ≠ tr.defaultTransform (tr.keyOfValue v) := same
          rw [if_neg differ]
          exact Exec.bind_of_ok run _
      · simp only []
        rw [Exec.bind_of_ok (isLeaf_inner cell), if_neg Bool.false_ne_true]
        rcases LawfulVariant.enter_spec admits ctx rep clear cell calm with
          ⟨run, sharedK⟩ | ⟨q, r, s', own', run, opened, frame, renews⟩
        · -- an inner node is passed
          rw [Exec.bind_of_ok run]
          simp only []
          rw [Exec.bind_of_ok (chunkAt_ok k bound s), Exec.bind_of_ok (findChild_ok cell wf _)]
          rcases slot : l.child (k.letter (branch h)) with _ | c'
          · right
            obtain ⟨sub, node, fits, broad, clear', rfl, vacant⟩ :=
              PathNode.of_missing rep clear cell sharedK slot
            obtain ⟨q', s', own', room, opened, frame, renews⟩ :=
              makeRoom_spec ctx node slot vacant fits broad clear' calm
            obtain ⟨steps, rfl⟩ : ∃ t, steps = t + 1 := ⟨steps - 1, by omega⟩
            exact ⟨q', branch h, s', own', insertLoop_missing steps bound room, opened, frame, renews⟩
          · obtain ⟨own', rest', ctx', rep', clear', owned⟩ := ctx.descend rep clear cell sharedK slot
            rw [owned]
            exact insertLoop_spec admits enough stateless calm steps (by omega) ctx' rep' clear'
        · -- a prefix is split, and the new node has no child for the key yet
          right
          refine ⟨q, r, s', own', ?_, opened, frame, renews⟩
          obtain @⟨p', q, d', outerOwn, h', l', sub, outer, node, missing, vacant, room, broad, clear'⟩ :=
            opened
          have notFull : l'.count < l'.maxSize := room.2.1
          rw [Exec.bind_of_ok run]
          simp only []
          rw [Exec.bind_of_ok (chunkAt_ok k node.bound s'),
            Exec.bind_of_ok (findChild_ok node.cell node.wf _), missing]
          have depth' := node.bound
          obtain ⟨steps, rfl⟩ : ∃ t, steps = t + 1 := ⟨steps - 1, by omega⟩
          exact insertLoop_missing steps node.bound (makeRoom_of_lt node.cell notFull)

end Loop

omit [HeaderSpec H] in
/-- What is done after the loop may be done in its two continuations. -/
theorem insertLoop_bind {α β : Type} {limit : ℕ} {duplicate : Addr → Run H K V n α}
    {place : Addr → ℤ → Run H K V n α} (rest : α → Run H K V n β) :
    ∀ (steps depth : ℕ) (current : Option Addr) (previous : Addr),
      insertLoop tr limit k duplicate place steps depth current previous >>= rest
        = insertLoop tr limit k (fun it => duplicate it >>= rest) (fun node i => place node i >>= rest)
          steps depth current previous
  | 0, _, _, _ => rfl
  | steps + 1, depth, current, previous => by
      cases current with
      | none =>
          rw [insertLoop, insertLoop]
          split
          · exact bind_assoc _ _ _
          · rfl
      | some current =>
          rw [insertLoop, insertLoop]
          split
          · simp only [bind_assoc]
            refine congrArg _ (funext fun leaf => ?_)
            cases leaf with
            | true =>
                simp only [if_pos, bind_assoc]
                refine congrArg _ (funext fun value => congrArg _ (funext fun tree => ?_))
                split
                · rfl
                · simp only [bind_assoc]
            | false =>
                simp only [Bool.false_eq_true, if_false, bind_assoc]
                refine congrArg _ (funext fun entered => congrArg _ (funext fun keyByte => ?_))
                exact congrArg _ (funext fun child => insertLoop_bind rest steps _ child _)
          · rfl

/-- **The loop ends** in the same way whatever is done next. -/
theorem insertLoop_ends [LawfulVariant H] {s : St H K V n} {e : Addr} {limit : ℕ} (admits : Admits H n)
    (enough : n ≤ limit) (stateless : s.tree.keyTransform = tr.defaultTransform)
    (calm : s.mem.failAt = none) (steps : ℕ) {p c prev : Addr} {d : ℕ} {own rest : Set Addr}
    (more : n < steps + d) (ctx : Ctx tr s.mem s.tree.dummyNode e s.tree.root k M (dom M) p c d own)
    (rep : Rep tr s.mem p c d (under M k d) rest) (clear : Disjoint own rest) :
    (∃ it v, M k = some (it, v) ∧ ∀ {α : Type} (duplicate : Addr → Run H K V n α)
        (place : Addr → ℤ → Run H K V n α),
        insertLoop tr limit k duplicate place steps d (some c) prev s = duplicate it s) ∨
      ∃ (q : Addr) (r : ℕ) (s' : St H K V n) (own' : Set Addr),
        (∀ {α : Type} (duplicate : Addr → Run H K V n α) (place : Addr → ℤ → Run H K V n α),
          insertLoop tr limit k duplicate place steps d (some c) prev s = place q r s') ∧
        Opened tr s' e k M q r own' ∧ s.Frame s' (own ∪ rest) ∧
        Memory.Renews s.mem s'.mem (own ∪ rest) own' := by
  -- the loop that reports how it ends, followed by the continuation of that end
  have reported : ∀ {α : Type} (duplicate : Addr → Run H K V n α) (place : Addr → ℤ → Run H K V n α),
      insertLoop tr limit k duplicate place steps d (some c) prev
        = insertLoop tr limit k (fun it => pure (Sum.inl it)) (fun q i => pure (Sum.inr (q, i)))
          steps d (some c) prev >>= Sum.elim duplicate fun found => place found.1 found.2 := by
    intro α duplicate place
    rw [insertLoop_bind]
    simp only [pure_bind, Sum.elim_inl, Sum.elim_inr]
  rcases @insertLoop_spec _ _ _ _ _ _ _ _ _ _ _ (fun it => pure (Sum.inl it))
      (fun q i => pure (Sum.inr (q, i))) _ _ _ admits enough stateless calm steps _ _ prev _ _ _ more ctx
      rep clear with ⟨it, v, entry, run⟩ | ⟨q, r, s', own', run, opened, frame, renews⟩
  · refine .inl ⟨it, v, entry, fun duplicate place => ?_⟩
    rw [reported]
    exact Exec.bind_of_ok run _
  · refine .inr ⟨q, r, s', own', fun duplicate place => ?_, opened, frame, renews⟩
    rw [reported]
    exact Exec.bind_of_ok run _

/-! ### The new leaf -/

/-- **The leaf is put into the opened node**, and the table has one entry more. -/
theorem attach_spec {s : St H K V n} {e q leaf : Addr} {r : ℕ} {own : Set Addr} {x : V}
    (opened : Opened tr s e k M q r own) (cell : s.mem.get leaf = some ⟨some q, .leaf x⟩)
    (off : leaf ∉ own) (key : tr.keyOf x = k) :
    ∃ p h l mem', s.mem.get q = some ⟨some p, .inner h l⟩ ∧ branch h = r ∧ r < n ∧
      insertChild q (k.letter r) leaf s = .ok ⟨⟩ (s.withMem mem') ∧
      Whole tr mem' s.tree.dummyNode e s.tree.root (put M k (leaf, x)) (own ∪ {leaf}) ∧
      Memory.Keeps s.mem mem' own ∧ mem'.next = s.mem.next := by
  obtain @⟨p, q, d, outerOwn, h, l, sub, outer, node, missing, vacant, room, broad, clear⟩ := opened
  obtain ⟨l', run, wf', type, count, children⟩ :=
    Layout.insert_spec node.wf leaf room.2.1 missing
  let mem' := s.mem.set q ⟨some p, .inner h l'⟩
  have offQ : leaf ≠ q := fun same => off (Or.inr (same ▸ Set.mem_insert leaf _))
  have qOff : q ∉ outerOwn := fun inside => Set.disjoint_left.mp clear inside (Set.mem_insert q _)
  have outside : ∀ v, ¬ Word.Agree (branch h + 1) k v → put M k (leaf, x) v = M v := by
    intro v apart
    refine put_of_ne M _ ?_
    rintro rfl
    exact apart (Word.Agree.refl _ v)
  have node' : PathNode tr mem' k (put M k (leaf, x)) p q d h l' sub := by
    have cell' : mem'.get q = _ := Memory.set_get_self node.cell _
    refine (node.relink cell' wf' (fun b other => ?_)
      fun b y inside => ?_).update outside
    · rw [children, if_neg other]
    · exact Memory.set_get_of_ne _ _ fun same => node.apart b (same ▸ inside)
  have outer' : Ctx tr mem' s.tree.dummyNode e s.tree.root k (put M k (leaf, x))
      (dom (put M k (leaf, x))) p q d outerOwn := by
    rw [dom_put]
    refine (outer.frame fun y inside => ?_).update (fun v apart => outside v fun agree => apart ?_)
      fun _ _ _ _ => id
    · exact Memory.set_get_of_ne _ _ fun same => qOff (same ▸ inside)
    · exact agree.mono (node.depth_le.trans (Nat.le_succ _))
  have rep : Rep tr mem' q leaf (branch h + 1) (under (put M k (leaf, x)) k (branch h + 1)) {leaf} := by
    have table : under (put M k (leaf, x)) k (branch h + 1) = single (tr.keyOf x) (leaf, x) := by
      rw [under_put_of_agree (Word.Agree.refl _ k), vacant, put_empty, key]
    rw [table]
    exact .leaf ((Memory.set_get_of_ne _ _ offQ).trans cell) node.bound
  have filled := node'.fill (c := leaf) (by rw [children, if_pos rfl])
    (by rw [count]; exact room.of_getType type) (by rw [dom_under, dom_put]; exact broad) rep
    (Set.disjoint_singleton_right.mpr fun inside => off (Or.inr inside))
  have whole := outer'.close filled (Set.disjoint_union_right.mpr ⟨clear,
    Set.disjoint_singleton_right.mpr fun inside => off (Or.inl inside)⟩)
  rw [← Set.union_assoc] at whole
  exact ⟨p, h, l, mem', node.cell, rfl, node.bound, insertChild_ok node.cell run, whole,
    Memory.keeps_set _ _ (Or.inr (Set.mem_insert q _)), rfl⟩

/-- A state of a container after an insertion. -/
theorem Holds.put_leaf {s s' : St H K V n} {e : Addr} {own own' : Set Addr} {leaf : Addr} {x : V}
    (holds : Holds tr s e M own) (absent : M k = none)
    (whole : Whole tr s'.mem s'.tree.dummyNode e s'.tree.root (put M k (leaf, x)) own')
    (count : s'.tree.count = s.tree.count + 1)
    (transform : s'.tree.keyTransform = s.tree.keyTransform)
    (failAt : s'.mem.failAt = s.mem.failAt) : Holds tr s' e (put M k (leaf, x)) own' where
  whole := whole
  count := by rw [count, holds.count, size_put_of_eq_none absent]
  stateless := transform.trans holds.stateless
  calm := failAt.trans holds.calm

/-- `insert_unique` at the node that has been opened. -/
theorem placeLeaf_spec {s s' : St H K V n} {e q : Addr} {r : ℕ} {own own' : Set Addr} {x : V}
    (holds : Holds tr s e M own) (opened : Opened tr s' e k M q r own') (frame : s.Frame s' own)
    (renews : Memory.Renews s.mem s'.mem own own') (key : tr.keyOf x = k) :
    M k = none ∧ ∃ it s'' own'', (do
        let newLeaf ← new ⟨some q, .leaf x⟩
        let keyByte ← chunkAt k r
        insertChild q keyByte newLeaf
        updateCount (· + 1)
        pure (newLeaf, true) : Run H K V n (Addr × Bool)) s' = .ok (it, true) s'' ∧
      Holds tr s'' e (put M k (it, x)) own'' ∧ Moves s s'' own own'' := by
  have absent := opened.absent
  have calm : s'.mem.failAt = none := frame.keeps.failAt.trans holds.calm
  let mem₁ := s'.mem.alloc ⟨some q, .leaf x⟩
  have old : Memory.Same s'.mem mem₁ own' := fun y inside =>
    Memory.alloc_get_of_ne _ _ (opened.live inside).ne
  have off : s'.mem.next ∉ own' := fun inside => absurd (opened.live inside) (lt_irrefl _)
  obtain ⟨p, h, l, mem₂, cell, rfl, bound, run, whole, keeps, next⟩ :=
    attach_spec (opened.frame old) (Memory.alloc_get_next _ _) off key
  let s'' := (s'.withMem mem₂).withCount (s'.tree.count + 1)
  have keeps' : Memory.Keeps s'.mem mem₂ own' :=
    (Memory.keeps_alloc s'.mem _ own').trans keeps fun y inside => .inl inside
  refine ⟨absent, s'.mem.next, s'', own' ∪ {s'.mem.next}, ?_, ?_, ⟨?_, ?_, frame.dummyNode⟩⟩
  · rw [Exec.bind_of_ok (new_ok _ calm), Exec.bind_of_ok (chunkAt_ok k bound _)]
    exact Exec.bind_of_ok run _
  · exact holds.put_leaf absent whole (congrArg (· + 1) frame.count) frame.keyTransform
      (keeps'.failAt.trans frame.keeps.failAt)
  · exact frame.keeps.trans keeps' renews.within
  · exact renews.trans (Memory.Renews.of_next_succ _ next) keeps' frame.keeps.next_le

/-- The first leaf of an empty container. -/
theorem first_leaf (tr : Traits K V n) {s : St H K V n} {e leaf : Addr} {x : V} {link : Option Addr}
    (sentinel : s.mem.get s.tree.dummyNode = some ⟨some s.tree.dummyNode, .dummy link e⟩)
    (endLeaf : s.mem.get e = some ⟨some s.tree.dummyNode, .baseLeaf⟩)
    (cell : s.mem.get leaf = some ⟨some s.tree.dummyNode, .leaf x⟩) :
    Whole tr (s.mem.set s.tree.dummyNode ⟨some s.tree.dummyNode, .dummy (some leaf) e⟩)
      s.tree.dummyNode e (some leaf) (put Table.empty (tr.keyOf x) (leaf, x))
      ({s.tree.dummyNode, e} ∪ {leaf}) := by
  have other : e ≠ s.tree.dummyNode := by
    intro same
    rw [same, sentinel] at endLeaf
    cases endLeaf
  have other' : leaf ≠ s.tree.dummyNode := by
    intro same
    rw [same, sentinel] at cell
    cases cell
  have apart : leaf ≠ e := by
    rintro rfl
    rw [endLeaf] at cell
    cases cell
  refine .tree (Memory.set_get_self sentinel _) ((Memory.set_get_of_ne _ _ other).trans endLeaf)
    (.leaf ((Memory.set_get_of_ne _ _ other').trans cell) (Nat.zero_le n)) ?_
  rw [Set.disjoint_singleton_right]
  rintro (same | same)
  · exact other' same
  · exact apart same

/-- Insertion into an empty container. -/
theorem insertUnique_first {s : St H K V n} {e : Addr} {own : Set Addr}
    (holds : Holds tr s e M own) (root : s.tree.root = none) (x : V) :
    M = Table.empty ∧ ∃ it s' own', insertUnique tr x s = .ok (it, true) s' ∧
      Holds tr s' e (put M (tr.keyOf x) (it, x)) own' ∧ Moves s s' own own' ∧
      s'.tree.root = some it := by
  have whole := holds.whole
  rw [root] at whole
  obtain ⟨rfl, rfl, endLeaf, link, sentinel⟩ := whole.of_none
  let mem₁ := s.mem.alloc ⟨some s.tree.dummyNode, .leaf x⟩
  have sentinel₁ := Memory.alloc_get_of_get sentinel ⟨some s.tree.dummyNode, .leaf x⟩
  have endLeaf₁ := Memory.alloc_get_of_get endLeaf ⟨some s.tree.dummyNode, .leaf x⟩
  have first := first_leaf tr (s := s.withMem mem₁) sentinel₁ endLeaf₁ (Memory.alloc_get_next _ _)
  let mem₂ := mem₁.set s.tree.dummyNode ⟨some s.tree.dummyNode, .dummy (some s.mem.next) e⟩
  refine ⟨rfl, s.mem.next, (((s.withMem mem₁).withRoot (some s.mem.next)).withCount
    (s.tree.count + 1)).withMem mem₂, {s.tree.dummyNode, e} ∪ {s.mem.next}, ?_,
    holds.put_leaf rfl first rfl rfl rfl, ⟨?_, ?_, rfl⟩, rfl⟩
  · unfold insertUnique
    rw [Exec.bind_of_ok (this_apply s)]
    simp only [root]
    rw [Exec.bind_of_ok (new_ok _ holds.calm), Exec.bind_of_ok (setRoot_apply _ _),
      Exec.bind_of_ok (updateCount_apply _ _)]
    exact Exec.bind_of_ok (linkDummy_ok (s := ((s.withMem mem₁).withRoot (some s.mem.next)).withCount
      (s.tree.count + 1)) sentinel₁) _
  · exact (Memory.keeps_alloc s.mem _ _).trans (Memory.keeps_set mem₁ _ (Or.inl rfl))
      fun a inside => .inl inside
  · exact Memory.Renews.of_next_succ _ rfl

/-- **`insert_unique`** returns the leaf of an equal key, or stores the value in a new leaf. -/
theorem insertUnique_spec [LawfulVariant H] {s : St H K V n} {e : Addr} {own : Set Addr}
    (admits : Admits H n) (holds : Holds tr s e M own) (x : V) :
    (∃ it v, M (tr.keyOf x) = some (it, v) ∧ insertUnique tr x s = .ok (it, false) s) ∨
      (M (tr.keyOf x) = none ∧ ∃ it s' own', insertUnique tr x s = .ok (it, true) s' ∧
        Holds tr s' e (put M (tr.keyOf x) (it, x)) own' ∧ Moves s s' own own') := by
  rcases root : s.tree.root with _ | r
  · obtain ⟨none, it, s', own', run, holds', moves, -⟩ := insertUnique_first holds root x
    exact .inr ⟨by rw [none]; rfl, it, s', own', run, holds', moves⟩
  · obtain ⟨rest, ctx, rep, clear, rfl⟩ := holds.path root (tr.keyOf x)
    unfold insertUnique
    rw [Exec.bind_of_ok (this_apply s)]
    simp only [holds.key_eq x, root]
    rcases insertLoop_spec admits (le_refl n) holds.stateless holds.calm (n + 1) (by omega) ctx
      rep clear with ⟨it, v, entry, run⟩ | ⟨q, i, s', own', run, opened, frame, renews⟩
    · exact .inl ⟨it, v, entry, run⟩
    · right
      obtain ⟨absent, it, s'', own'', placed, holds', moves⟩ :=
        placeLeaf_spec (x := x) holds opened frame renews rfl
      exact ⟨absent, it, s'', own'', run.trans placed, holds', moves⟩

/-! ### `emplace_unique` -/

/-- **`insert_leaf`** at the node that has been opened. -/
theorem insertLeaf_spec {s s' : St H K V n} {e q leaf : Addr} {r : ℕ} {own own' : Set Addr} {x : V}
    (holds : Holds tr s e M own) (opened : Opened tr s' e k M q r own') (frame : s.Frame s' own)
    (renews : Memory.Renews s.mem s'.mem own own') (key : tr.keyOf x = k)
    (cell : s.mem.get leaf = some ⟨none, .leaf x⟩) (off : leaf ∉ own) :
    ∃ s'', insertLeaf q leaf k s' = .ok leaf s'' ∧
      Holds tr s'' e (put M k (leaf, x)) (own' ∪ {leaf}) ∧
      Memory.Keeps s.mem s''.mem (own ∪ {leaf}) ∧
      Memory.Renews s.mem s''.mem (own ∪ {leaf}) (own' ∪ {leaf}) ∧
      s''.tree.dummyNode = s.tree.dummyNode := by
  have lt := Memory.lt_next_of_get cell
  have cell' : s'.mem.get leaf = some ⟨none, .leaf x⟩ := (frame.keeps.get leaf off lt).trans cell
  have off' : leaf ∉ own' := fun inside =>
    (renews.within leaf inside).elim off fun beyond => absurd lt (not_lt.mpr beyond)
  let mem₁ := s'.mem.set leaf ⟨some q, .leaf x⟩
  have kept : Memory.Same s'.mem mem₁ own' := fun y inside =>
    Memory.set_get_of_ne _ _ fun same => off' (same ▸ inside)
  obtain ⟨p, h, l, mem₂, node, rfl, bound, run, whole, keeps, next⟩ :=
    attach_spec (opened.frame kept) (Memory.set_get_self cell' _) off' key
  let s'' := (s'.withMem mem₂).withCount (s'.tree.count + 1)
  have keeps' : Memory.Keeps s'.mem mem₂ (own' ∪ {leaf}) :=
    (Memory.keeps_set s'.mem _ (Or.inr rfl)).trans keeps fun y inside => .inl (Or.inl inside)
  refine ⟨s'', ?_, ?_, ?_, ?_, frame.dummyNode⟩
  · unfold insertLeaf
    rw [Exec.bind_of_ok (setParent_ok cell' _)]
    refine (Exec.bind_of_ok (getType_inner (s := s'.withMem mem₁) node) _).trans ?_
    rw [if_pos (layout_getType_ne l).2]
    refine (Exec.bind_of_ok (headerOf_ok (s := s'.withMem mem₁) node) _).trans ?_
    refine (Exec.bind_of_ok (chunkAt_ok k bound _) _).trans ?_
    exact Exec.bind_of_ok run _
  · exact holds.put_leaf opened.absent whole (congrArg (· + 1) frame.count) frame.keyTransform
      (keeps'.failAt.trans frame.keeps.failAt)
  · refine (frame.keeps.mono Set.subset_union_left).trans keeps' fun y inside => ?_
    rcases inside with inside | rfl
    · exact (renews.within y inside).imp Or.inl id
    · exact .inl (Or.inr rfl)
  · have both := renews.extend {leaf}
    rw [Set.union_comm {leaf}, Set.union_comm {leaf}] at both
    exact both.trans (Memory.Renews.of_next _ next) keeps' frame.keeps.next_le

/-- **`insert_leaf`** into an empty container. -/
theorem insertLeaf_first {s : St H K V n} {e leaf : Addr} {own : Set Addr} {x : V}
    (holds : Holds tr s e M own) (root : s.tree.root = none)
    (cell : s.mem.get leaf = some ⟨none, .leaf x⟩) (off : leaf ∉ own) :
    M = Table.empty ∧ ∃ s', insertLeaf s.tree.dummyNode leaf (tr.keyOf x) s = .ok leaf s' ∧
      Holds tr s' e (put M (tr.keyOf x) (leaf, x)) (own ∪ {leaf}) ∧
      Memory.Keeps s.mem s'.mem (own ∪ {leaf}) ∧
      Memory.Renews s.mem s'.mem (own ∪ {leaf}) (own ∪ {leaf}) ∧
      s'.tree.dummyNode = s.tree.dummyNode := by
  have whole := holds.whole
  rw [root] at whole
  obtain ⟨rfl, rfl, endLeaf, link, sentinel⟩ := whole.of_none
  let mem₁ := s.mem.set leaf ⟨some s.tree.dummyNode, .leaf x⟩
  have sentinel₁ : mem₁.get s.tree.dummyNode = _ :=
    (Memory.set_get_of_ne _ _ fun same => off (Or.inl same.symm)).trans sentinel
  have endLeaf₁ : mem₁.get e = _ :=
    (Memory.set_get_of_ne _ _ fun same => off (Or.inr same.symm)).trans endLeaf
  have first := first_leaf tr (s := s.withMem mem₁) sentinel₁ endLeaf₁
    (Memory.set_get_self cell _)
  let mem₂ := mem₁.set s.tree.dummyNode ⟨some s.tree.dummyNode, .dummy (some leaf) e⟩
  refine ⟨rfl, (((s.withMem mem₁).withRoot (some leaf)).withMem mem₂).withCount (s.tree.count + 1), ?_,
    holds.put_leaf rfl first rfl rfl rfl, ?_, Memory.Renews.of_next _ rfl, rfl⟩
  · unfold insertLeaf
    rw [Exec.bind_of_ok (setParent_ok cell _)]
    refine (Exec.bind_of_ok (getType_dummy (s := s.withMem mem₁) sentinel₁) _).trans ?_
    rw [if_neg (by simp)]
    exact Exec.bind_of_ok (replaceRoot_ok (s := s.withMem mem₁) leaf sentinel₁) _
  · exact (Memory.keeps_set s.mem _ (Or.inr rfl)).trans (Memory.keeps_set mem₁ _ (Or.inl (Or.inl rfl)))
      fun y inside => .inl inside

/-- **`emplace_unique`** finds the leaf of an equal key and changes nothing, or stores the value in a
new leaf. -/
theorem emplaceUnique_spec [LawfulVariant H] {s : St H K V n} {e : Addr} {own : Set Addr}
    (admits : Admits H n) (holds : Holds tr s e M own) (x : V) :
    (∃ it v s', M (tr.keyOf x) = some (it, v) ∧ emplaceUnique tr x s = .ok (it, false) s' ∧
        (∀ a, s'.mem.get a = s.mem.get a) ∧ s'.tree = s.tree ∧ Holds tr s' e M own ∧
        Moves s s' own own) ∨
      (M (tr.keyOf x) = none ∧ ∃ it s' own', emplaceUnique tr x s = .ok (it, true) s' ∧
        Holds tr s' e (put M (tr.keyOf x) (it, x)) own' ∧ Moves s s' own own') := by
  let leaf := s.mem.next
  let mem₁ := s.mem.alloc ⟨none, .leaf x⟩
  let s₁ := s.withMem mem₁
  have cell : s₁.mem.get leaf = some ⟨none, .leaf x⟩ := Memory.alloc_get_next _ _
  have off : leaf ∉ own := fun inside => absurd (holds.whole.lt_next inside) (lt_irrefl _)
  have holds₁ : Holds tr s₁ e M own := holds.frame
    (fun y inside => Memory.alloc_get_of_ne _ _ (holds.whole.lt_next inside).ne) rfl
  have keeps₁ : Memory.Keeps s.mem s₁.mem own := Memory.keeps_alloc _ _ _
  -- what `emplace_unique` does once the position is known
  have unfolded : ∀ {node : Addr} {s₂ : St H K V n} {type : NodeType} {result : Addr × Bool}
      {s' : St H K V n}, getInsertUniquePos tr (tr.keyOf x) s₁ = .ok node s₂ →
      getType node s₂ = .ok type s₂ →
      (if type ≠ .leaf then (do
          let it ← insertLeaf node leaf (tr.keyOf x)
          pure (it, true) : Run H K V n (Addr × Bool))
        else do
          delete leaf
          pure (node, false)) s₂ = .ok result s' →
      emplaceUnique tr x s = .ok result s' := by
    intro node s₂ type result s' position getType finish
    unfold emplaceUnique
    refine (Exec.bind_of_ok (onThrow_ok (new_ok _ holds.calm)) _).trans (onThrow_ok ?_)
    refine (Exec.bind_of_ok (this_apply s₁) _).trans ?_
    refine (Exec.bind_of_ok (leafValue_ok cell) _).trans ?_
    simp only [holds₁.key_eq x]
    refine (Exec.bind_of_ok position _).trans ?_
    exact (Exec.bind_of_ok getType _).trans finish
  -- and what its result means for the caller
  have stored : ∀ {s' : St H K V n} {own' : Set Addr}, Memory.Keeps s₁.mem s'.mem (own ∪ {leaf}) →
      Memory.Renews s₁.mem s'.mem (own ∪ {leaf}) (own' ∪ {leaf}) →
      s'.tree.dummyNode = s₁.tree.dummyNode →
      Moves s s' own (own' ∪ {leaf}) := by
    intro s' own' keeps renews dummyNode
    have first : Memory.Renews s.mem s₁.mem own (own ∪ {leaf}) := Memory.Renews.of_next_succ _ rfl
    exact ⟨keeps₁.trans keeps first.within, first.trans renews keeps (Nat.le_succ _), dummyNode⟩
  rcases root : s.tree.root with _ | r
  · right
    have position : getInsertUniquePos tr (tr.keyOf x) s₁ = .ok s.tree.dummyNode s₁ := by
      unfold getInsertUniquePos
      rw [Exec.bind_of_ok (this_apply s₁), show s₁.tree.root = none from root]
      rfl
    obtain ⟨absent, s', run, holds', keeps, renews, dummyNode⟩ :=
      insertLeaf_first holds₁ root cell off
    have whole := holds₁.whole
    rw [show s₁.tree.root = none from root] at whole
    obtain ⟨-, -, -, link, sentinel⟩ := whole.of_none
    refine ⟨by rw [absent]; rfl, leaf, s', own ∪ {leaf}, unfolded position (getType_dummy sentinel) ?_,
      holds', stored keeps renews dummyNode⟩
    rw [if_pos (by simp)]
    exact Exec.bind_of_ok run _
  · have position : getInsertUniquePos tr (tr.keyOf x) s₁
        = insertLoop tr (Variant.posLimit H n) (tr.keyOf x) (fun existingLeaf => pure existingLeaf)
          (fun node _ => pure node) (n + 1) 0 (some r) s.tree.dummyNode s₁ := by
      unfold getInsertUniquePos
      rw [Exec.bind_of_ok (this_apply s₁), show s₁.tree.root = some r from root]
      rfl
    obtain ⟨rest, ctx, rep, clear, rfl⟩ := holds₁.path root (tr.keyOf x)
    rcases insertLoop_spec admits (LawfulVariant.le_posLimit (H := H) n)
        holds₁.stateless holds₁.calm (n + 1) (by omega) ctx rep clear with
      ⟨it, v, entry, run⟩ | ⟨q, i, s₂, own', run, opened, frame, renews⟩
    · left
      obtain ⟨-, inside, p, cellIt⟩ := rep.leaf_cell ((under_zero M (tr.keyOf x)).symm ▸ entry)
      have same : ∀ a, (mem₁.free leaf).get a = s.mem.get a := by
        intro a
        by_cases here : a = leaf
        · rw [here, Memory.free_get_self, Memory.get_next]
        · exact (Memory.free_get_of_ne _ here).trans (Memory.alloc_get_of_ne _ _ here)
      refine ⟨it, v, s₁.withMem (mem₁.free leaf), entry,
        unfolded (position.trans run) (getType_leaf cellIt) ?_, same, rfl,
        holds.frame (fun y _ => same y) rfl, ⟨?_, Memory.Renews.of_same _ same, rfl⟩⟩
      · rw [if_neg (by simp)]
        exact Exec.bind_of_ok (delete_ok cell) _
      · exact ⟨Nat.le_succ _, rfl, fun y _ _ => same y⟩
    · right
      have absent := opened.absent
      obtain ⟨s', placed, holds', keeps, renews', dummyNode⟩ :=
        insertLeaf_spec holds₁ opened frame renews rfl cell off
      obtain @⟨p, q, d, outerOwn, h, l, sub, outer, node, -, -, -, -, -⟩ := opened
      refine ⟨absent, leaf, s', _, unfolded (position.trans run) (getType_inner node.cell) ?_, holds',
        stored keeps renews' dummyNode⟩
      rw [if_pos (layout_getType_ne l).1]
      exact Exec.bind_of_ok placed _

end CppArt
