/-
**Erasure.**

`erase_unique` walks down the path of the key and, at the leaf of an equal key (`LeafSite`), detaches
it: the node above erases its child, the count goes down and the tree is repaired (`detach_spec`). The
walk is an induction over its steps, with the hole moving down the path of the key, for any function that
is called at the leaf (`eraseLoopWith_walk`).

* `eraseUnique_spec`: the entry of the key is dropped if there is one, and the number of erased
  elements is returned;
* `eraseAt_spec`: the entry of an iterator is dropped as by its key, and the iterator that follows it is
  returned;
* `clear_spec`: every node below the sentinel is freed.
-/

import CppArt.Proof.Laws

namespace CppArt

open Table

variable {H K V : Type} {n : ℕ} [Variant H] [HeaderSpec H] {tr : Traits K V n} {k : Key n}
  {M : Contents n V}

omit [Variant H] [HeaderSpec H] in
/-- Erasing a byte leaves a number of children the layout was used for. -/
theorem fits_of_erased {l l' : Layout} (fits : l.Fits l.count) (type : l'.getType = l.getType)
    (count : l'.count + 1 = l.count) : l'.Fits (l'.count + 1) := by
  rw [count]
  exact fits.of_getType type

/-! ### A leaf below an inner node -/

/-- The end of `erase_unique` and of `erase` at a leaf below an inner node. -/
def detach (q : Addr) (keyByte : Byte) (key : Key n) : Run H K V n Unit := do
  eraseChild q keyByte
  updateCount (· - 1)
  Variant.fixAfterErase q key

omit [Variant H] in
/-- **The leaf `c` of `k` hangs below the inner node `q`** of a container that owns `own`. -/
structure LeafSite [Header H] [HeaderSpec H] (tr : Traits K V n) (s : St H K V n) (e : Addr) (k : Key n)
    (M : Contents n V) (own : Set Addr) (p q c : Addr) (v : V) (d : ℕ) (h : H) (l : Layout)
    (sub : Byte → Set Addr) (own' : Set Addr) : Prop where
  entry : M k = some (c, v)
  outer : Ctx tr s.mem s.tree.dummyNode e s.tree.root k M (dom M) p q d own'
  node : PathNode tr s.mem k M p q d h l sub
  slot : l.child (k.letter (branch h)) = some c
  fits : l.Fits l.count
  broad : Broad H (branch h) (dom (under M k d))
  clear : Disjoint own' (around q sub)
  leaf : s.mem.get c = some ⟨some q, .leaf v⟩
  alone : under M k (branch h + 1) = single k (c, v)
  owned : own = own' ∪ around q sub ∪ {c}
  off : c ∉ own' ∪ around q sub

/-- **The leaf of `k` is erased from the node above**, which is left for repair. -/
theorem LeafSite.erased {s : St H K V n} {p q c e : Addr} {d : ℕ} {own own' : Set Addr}
    {h : H} {l : Layout} {sub : Byte → Set Addr} {v : V} (holds : Holds tr s e M own)
    (site : LeafSite tr s e k M own p q c v d h l sub own') :
    ∃ s₁ l', (do
        eraseChild q (k.letter (branch h))
        updateCount (· - 1) : Run H K V n Unit) s = .ok ⟨⟩ s₁ ∧
      Vacated tr s₁ e k M p q d h l' sub own' ∧ l'.getType = l.getType ∧ l'.count + 1 = l.count ∧
      (∀ b, l'.child b = if b = k.letter (branch h) then none else l.child b) ∧
      (∀ x, x ≠ q → x ≠ c → s₁.mem.get x = s.mem.get x) ∧
      Memory.Keeps s.mem s₁.mem own ∧ Memory.Renews s.mem s₁.mem own (own' ∪ around q sub) ∧
      s₁ = (s.withMem s₁.mem).withCount (s.tree.count - 1) := by
  obtain ⟨entry, outer, node, slot, fits, broad, clear, leaf, alone, owned, off⟩ := site
  obtain ⟨l', run, wf', type, count, children⟩ := Layout.erase_spec node.wf slot
  let mem' := (s.mem.free c).set q ⟨some p, .inner h l'⟩
  let s₁ := (s.withMem mem').withCount (s.tree.count - 1)
  have offQ : q ≠ c := fun same => off (Or.inr (same ▸ Set.mem_insert q _))
  have here : (s.mem.free c).get q = some ⟨some p, .inner h l⟩ :=
    (Memory.free_get_of_ne _ offQ).trans node.cell
  have kept : ∀ x, x ≠ q → x ≠ c → mem'.get x = s.mem.get x := fun x notQ notC =>
    (Memory.set_get_of_ne _ _ notQ).trans (Memory.free_get_of_ne _ notC)
  have qOff : q ∉ own' := fun inside => Set.disjoint_left.mp clear inside (Set.mem_insert q _)
  have outer₁ : Ctx tr s₁.mem s₁.tree.dummyNode e s₁.tree.root k M (dom M) p q d own' :=
    outer.frame fun x inside => kept x (fun same => qOff (same ▸ inside))
      fun same => off (Or.inl (same ▸ inside))
  have node₁ : PathNode tr s₁.mem k M p q d h l' sub := by
    refine node.relink (Memory.set_get_self here _) wf' (fun b other => ?_) fun b x inside => ?_
    · rw [children, if_neg other]
    · exact kept x (fun same => node.apart b (same ▸ inside))
        fun same => off (Or.inr (same ▸ mem_around_of_sub inside))
  have vacated : Vacated tr s₁ e k M p q d h l' sub own' :=
    ⟨outer₁, node₁, by rw [children, if_pos rfl], fits_of_erased fits type count,
      by rw [alone, dom_single]; exact fun v inside => inside, broad, clear, holds.calm⟩
  refine ⟨s₁, l', ?_, vacated, type, count, children, kept, ?_, ?_, rfl⟩
  · exact Exec.bind_of_ok (eraseChild_ok node.cell run leaf) _
  · have leafIn : c ∈ own := owned ▸ Or.inr rfl
    have nodeIn : q ∈ own := owned ▸ Or.inl (Or.inr (Set.mem_insert q _))
    exact (Memory.keeps_free s.mem leafIn).trans (Memory.keeps_set _ _ nodeIn)
      fun x inside => .inl inside
  · have next : s₁.mem.next = s.mem.next := rfl
    refine (Memory.Renews.of_next own next).drop (owned ▸ Set.subset_union_left)
      fun x inside outside => ?_
    rw [owned] at inside
    obtain rfl : x = c := inside.resolve_left outside
    exact (Memory.set_get_of_ne _ _ offQ.symm).trans (Memory.free_get_self _ _)

/-- **The leaf of `k` is detached**: it is erased from the node above, which is repaired. -/
theorem detach_spec [LawfulVariant H] {s : St H K V n} {p q c e : Addr} {d : ℕ} {own own' : Set Addr}
    {h : H} {l : Layout} {sub : Byte → Set Addr} {v : V} (admits : Admits H n)
    (holds : Holds tr s e M own) (site : LeafSite tr s e k M own p q c v d h l sub own') :
    ∃ s' own'', detach q (k.letter (branch h)) k s = .ok ⟨⟩ s' ∧
      Holds tr s' e (drop M k) own'' ∧ Moves s s' own own'' := by
  obtain ⟨s₁, l', run, vacated, -, -, -, -, keeps, erased, same⟩ := site.erased holds
  obtain ⟨s', own'', fixed, whole, frame, renews⟩ := LawfulVariant.fixAfterErase_spec admits vacated
  have within : own' ∪ around q sub ⊆ own := site.owned ▸ Set.subset_union_left
  refine ⟨s', own'', ?_, ⟨whole, ?_, ?_, ?_⟩, ⟨?_, ?_, ?_⟩⟩
  · have unfolded : detach q (k.letter (branch h)) k = ((do
        eraseChild q (k.letter (branch h))
        updateCount (· - 1) : Run H K V n Unit) >>= fun _ => Variant.fixAfterErase q k) := by
      rw [detach, bind_assoc]
    rw [unfolded, Exec.bind_of_ok run, fixed]
  · have size := size_drop_of_mem (mem_dom_of_eq_some site.entry)
    have before := holds.count
    have after : s'.tree.count = s.tree.count - 1 := frame.count.trans (by rw [same]; rfl)
    omega
  · exact (frame.keyTransform.trans (by rw [same]; rfl)).trans holds.stateless
  · exact frame.keeps.failAt.trans vacated.calm
  · exact keeps.trans (frame.keeps.mono within) fun x inside => .inl inside
  · exact erased.trans renews frame.keeps keeps.next_le
  · exact frame.dummyNode.trans (by rw [same]; rfl)

/-! ### `erase_unique` -/

/-- The loop of `erase_unique`, with what is done at a leaf below an inner node. -/
def eraseLoopWith (finish : Addr → Byte → Key n → Run H K V n Unit) (tr : Traits K V n) (key : Key n) :
    ℕ → ℕ → Addr → Run H K V n ℕ
  | 0, _, _ => throw .unreachable
  | steps + 1, depth, current =>
      if depth < n then do
        match ← Variant.pass tr current key depth with
        | none => pure 0
        | some depth => do
            let keyByte ← chunkAt key depth
            match ← findChild current keyByte with
            | none => pure 0
            | some child => do
                if ← isLeaf child then do
                  let value ← leafValue child
                  let tree ← this
                  if key = tree.keyTransform (tr.keyOfValue value) then do
                    finish current keyByte key
                    pure 1
                  else pure 0
                else eraseLoopWith finish tr key steps (depth + 1) child
      else throw .unreachable

omit [HeaderSpec H] in
theorem eraseLoop_eq (key : Key n) : ∀ steps, (eraseLoop tr key steps : ℕ → Addr → Run H K V n ℕ)
    = eraseLoopWith detach tr key steps
  | 0 => rfl
  | steps + 1 => by
      funext depth current
      simp only [eraseLoopWith, detach, bind_assoc, ← eraseLoop_eq key steps]
      rfl

/-- **The loop of `erase_unique`** from an inner node on the path of the key finds its leaf. -/
theorem eraseLoopWith_walk [LawfulVariant H] {s : St H K V n} {e : Addr} {own : Set Addr}
    (holds : Holds tr s e M own) :
    ∀ (steps : ℕ) {p q : Addr} {d : ℕ} {h : H} {l : Layout} {own' rest : Set Addr}, n ≤ steps + d →
      Ctx tr s.mem s.tree.dummyNode e s.tree.root k M (dom M) p q d own' →
      Rep tr s.mem p q d (under M k d) rest → Disjoint own' rest → own = own' ∪ rest →
      s.mem.get q = some ⟨some p, .inner h l⟩ →
      (M k = none ∧ ∀ finish, eraseLoopWith finish tr k steps d q s = .ok 0 s) ∨
      ∃ p' q' c v d' h' l' sub own'', LeafSite tr s e k M own p' q' c v d' h' l' sub own'' ∧
        ∀ finish, eraseLoopWith finish tr k steps d q s
          = (finish q' (k.letter (branch h')) k >>= fun _ => pure 1) s
  | steps, p, q, d, h, l, own', rest, enough, ctx, rep, clear, owned, cell => by
      obtain ⟨wf, bound, le, describes⟩ : l.WF ∧ branch h < n ∧ d ≤ branch h ∧
          ∀ v ∈ dom (under M k d), Describes h d v := by
        rcases rep.inspect with ⟨v, cell', -, -⟩ | ⟨h', l', cell', wf, bound, le, -, describes⟩
        · rw [cell] at cell'
          cases cell'
        · rw [cell] at cell'
          cases cell'
          exact ⟨wf, bound, le, describes⟩
      obtain ⟨steps, rfl⟩ : ∃ t, steps = t + 1 := ⟨steps - 1, by omega⟩
      have absent : ∀ {r : ℕ}, (∀ v ∈ dom (under M k d), ¬ Word.Agree r k v) → M k = none := by
        intro r apart
        by_contra present
        exact apart k (mem_dom_under.mpr ⟨Word.Agree.refl d k, present⟩) (Word.Agree.refl r k)
      rcases LawfulVariant.pass_spec rep cell fun v member => (mem_dom_under.mp member).1 with
        ⟨run, shared⟩ | ⟨run, apart⟩
      · rcases slot : l.child (k.letter (branch h)) with _ | c
        · obtain ⟨-, -, -, -, -, -, vacant⟩ := PathNode.of_missing rep clear cell shared slot
          refine .inl ⟨eq_none_of_vacant vacant, fun finish => ?_⟩
          rw [eraseLoopWith, if_pos (le.trans_lt bound), Exec.bind_of_ok run]
          simp only []
          rw [Exec.bind_of_ok (chunkAt_ok k bound s), Exec.bind_of_ok (findChild_ok cell wf _), slot]
          rfl
        · have passed : ∀ finish, eraseLoopWith finish tr k (steps + 1) d q s = (do
                if ← isLeaf c then do
                  let value ← leafValue c
                  let tree ← this
                  if k = tree.keyTransform (tr.keyOfValue value) then do
                    finish q (k.letter (branch h)) k
                    pure 1
                  else pure 0
                else eraseLoopWith finish tr k steps (branch h + 1) c : Run H K V n ℕ) s := by
            intro finish
            rw [eraseLoopWith, if_pos (le.trans_lt bound), Exec.bind_of_ok run]
            simp only []
            rw [Exec.bind_of_ok (chunkAt_ok k bound s), Exec.bind_of_ok (findChild_ok cell wf _), slot]
          obtain ⟨sub, rest', node, fits, broad, rfl, clear', -, kid⟩ :=
            PathNode.of_rep rep cell shared
          have apart := Set.disjoint_union_right.mp clear
          have below := kid c slot
          have split : own' ∪ (around q sub ∪ rest') = own' ∪ around q sub ∪ rest' :=
            (Set.union_assoc _ _ _).symm
          rcases below.inspect with ⟨v, leaf, table, rfl⟩ | ⟨h', l', inner, -⟩
          · -- the path ends at a leaf
            have compared : ∀ finish, eraseLoopWith finish tr k (steps + 1) d q s
                = (if k = tr.keyOf v then (do
                    finish q (k.letter (branch h)) k
                    pure 1) else pure 0 : Run H K V n ℕ) s := by
              intro finish
              rw [passed, Exec.bind_of_ok (isLeaf_leaf leaf), if_pos rfl, Exec.bind_of_ok (leafValue_ok leaf),
                Exec.bind_of_ok (this_apply s), holds.key_eq]
            by_cases same : k = tr.keyOf v
            · right
              rw [← same] at table
              have entry : M k = some (c, v) := by rw [← under_self M k (branch h + 1), table, single_self]
              refine ⟨p, q, c, v, d, h, l, sub, own', ⟨entry, ctx, node, slot, fits, broad, apart.1, leaf,
                table, owned.trans split,
                Set.disjoint_singleton_right.mp (Set.disjoint_union_left.mpr ⟨apart.2, clear'⟩)⟩,
                fun finish => ?_⟩
              rw [compared, if_pos same]
            · left
              refine ⟨?_, fun finish => by rw [compared, if_neg same]; rfl⟩
              rw [← under_self M k (branch h + 1), table, single_apply, if_neg same]
          · have ctx' : Ctx tr s.mem s.tree.dummyNode e s.tree.root k M (dom M) q c (branch h + 1) _ :=
              .step ctx node slot fits (by rwa [dom_under] at broad) apart.1
            have descends : ∀ finish, eraseLoopWith finish tr k (steps + 1) d q s
                = eraseLoopWith finish tr k steps (branch h + 1) c s := by
              intro finish
              rw [passed, Exec.bind_of_ok (isLeaf_inner inner), if_neg Bool.false_ne_true]
            simp only [descends]
            exact eraseLoopWith_walk holds steps (by omega) ctx' below
              (Set.disjoint_union_left.mpr ⟨apart.2, clear'⟩) (owned.trans split) inner
      · left
        refine ⟨absent apart, fun finish => ?_⟩
        rw [eraseLoopWith, if_pos (le.trans_lt bound), Exec.bind_of_ok run]
        rfl

/-- The end of `erase_unique` and of `erase` at a leaf that is the root. -/
def detachRoot (r : Addr) : Run H K V n Unit := do
  delete r
  setRoot none
  updateCount (· - 1)

/-- **The root leaf is erased.** The sentinel keeps its address. -/
theorem detachRoot_spec {s : St H K V n} {e r : Addr} {v : V} {own : Set Addr}
    (holds : Holds tr s e M own) (root : s.tree.root = some r)
    (leaf : s.mem.get r = some ⟨some s.tree.dummyNode, .leaf v⟩) :
    M = single (tr.keyOf v) (r, v) ∧ ∃ s', detachRoot r s = .ok ⟨⟩ s' ∧
      Holds tr s' e (drop M (tr.keyOf v)) {s.tree.dummyNode, e} ∧
      Moves s s' own {s.tree.dummyNode, e} := by
  obtain ⟨rest, ctx, rep, clear, rfl⟩ := holds.path root (tr.keyOf v)
  rw [under_zero] at rep
  rcases rep.inspect with ⟨v', leaf', table, rfl⟩ | ⟨h, l, inner, -⟩
  · rw [leaf, Option.some.injEq, Cell.mk.injEq, Body.leaf.injEq] at leaf'
    obtain ⟨-, rfl⟩ := leaf'
    obtain ⟨-, sentinel, endLeaf, -, -⟩ := ctx.sentinel
    have off := Set.disjoint_singleton_right.mp clear
    have other : s.tree.dummyNode ≠ r := fun same => off (Or.inl same.symm)
    have other' : e ≠ r := fun same => off (Or.inr same.symm)
    have dropped : drop M (tr.keyOf v) = Table.empty := by
      rw [eq_empty_iff, dom_drop, table, dom_single, Set.sdiff_self]
    refine ⟨table, ((s.withMem (s.mem.free r)).withRoot none).withCount (s.tree.count - 1), ?_,
      ⟨?_, ?_, holds.stateless, holds.calm⟩, ?_, ?_, rfl⟩
    · unfold detachRoot
      rw [Exec.bind_of_ok (delete_ok leaf)]
      rfl
    · rw [dropped]
      exact .empty ((Memory.free_get_of_ne _ other).trans sentinel)
        ((Memory.free_get_of_ne _ other').trans endLeaf)
    · have before := holds.count
      rw [table, size, dom_single, Set.ncard_singleton] at before
      rw [dropped]
      simp [before]
    · exact Memory.keeps_free _ (Or.inr rfl)
    · have next : (s.mem.free r).next = s.mem.next := rfl
      refine (Memory.Renews.of_next _ next).drop Set.subset_union_left fun x inside outside => ?_
      obtain rfl : x = r := inside.resolve_left outside
      exact Memory.free_get_self _ _
  · rw [leaf] at inner
    cases inner

/-- `erase_unique`, with what is done at a leaf below an inner node. -/
def eraseUniqueWith (finish : Addr → Byte → Key n → Run H K V n Unit) (tr : Traits K V n) (k : K) :
    Run H K V n ℕ := do
  let tree ← this
  match tree.root with
  | none => pure 0
  | some root => do
      let key := tree.keyTransform k
      if ← isLeaf root then do
        let value ← leafValue root
        if key = tree.keyTransform (tr.keyOfValue value) then do
          delete root
          setRoot none
          updateCount (· - 1)
          pure 1
        else pure 0
      else eraseLoopWith finish tr key n 0 root

omit [HeaderSpec H] in
theorem eraseUnique_eq (k : K) :
    (eraseUnique tr k : Run H K V n ℕ) = eraseUniqueWith detach tr k := by
  unfold eraseUnique
  simp only [eraseLoop_eq]
  rfl

/-- **What `erase_unique` does**: nothing, or it detaches the leaf of the key. -/
theorem eraseUniqueWith_walk [LawfulVariant H] {s : St H K V n} {e : Addr} {own : Set Addr}
    (holds : Holds tr s e M own) (k : K) :
    (M (tr.defaultTransform k) = none ∧ ∀ finish, eraseUniqueWith finish tr k s = .ok 0 s) ∨
      (∃ r v, s.tree.root = some r ∧ s.mem.get r = some ⟨some s.tree.dummyNode, .leaf v⟩ ∧
        tr.keyOf v = tr.defaultTransform k ∧
        ∀ finish, eraseUniqueWith finish tr k s = (detachRoot r >>= fun _ => pure 1) s) ∨
      ∃ p q c v d h l sub own', LeafSite tr s e (tr.defaultTransform k) M own p q c v d h l sub own' ∧
        ∀ finish, eraseUniqueWith finish tr k s = (finish q ((tr.defaultTransform k).letter (branch h))
          (tr.defaultTransform k) >>= fun _ => pure 1) s := by
  rcases root : s.tree.root with _ | r
  · refine .inl ⟨by rw [holds.eq_empty root]; rfl, fun finish => ?_⟩
    unfold eraseUniqueWith
    rw [Exec.bind_of_ok (this_apply s), root]
    rfl
  · have unfolded : ∀ finish, eraseUniqueWith finish tr k s = (do
          if ← isLeaf r then do
            let value ← leafValue r
            if tr.defaultTransform k = tr.keyOf value then do
              delete r
              setRoot none
              updateCount (· - 1)
              pure 1
            else pure 0
          else eraseLoopWith finish tr (tr.defaultTransform k) n 0 r : Run H K V n ℕ) s := by
      intro finish
      unfold eraseUniqueWith
      rw [Exec.bind_of_ok (this_apply s), root]
      simp only [holds.stateless]
      rfl
    obtain ⟨rest, ctx, rep, clear, owned⟩ := holds.path root (tr.defaultTransform k)
    rcases rep.inspect with ⟨v, leaf, table, rfl⟩ | ⟨h, l, inner, -⟩
    · have compared : ∀ finish, eraseUniqueWith finish tr k s
          = (if tr.defaultTransform k = tr.keyOf v then (do
              delete r
              setRoot none
              updateCount (· - 1)
              pure 1) else pure 0 : Run H K V n ℕ) s := by
        intro finish
        rw [unfolded, Exec.bind_of_ok (isLeaf_leaf leaf), if_pos rfl, Exec.bind_of_ok (leafValue_ok leaf)]
      rw [under_zero] at table
      by_cases same : tr.defaultTransform k = tr.keyOf v
      · refine .inr (.inl ⟨r, v, rfl, leaf, same.symm, fun finish => ?_⟩)
        rw [compared, if_pos same]
        simp only [detachRoot, bind_assoc]
      · left
        refine ⟨by rw [table, single_apply, if_neg same], fun finish => ?_⟩
        rw [compared, if_neg same]
        rfl
    · have descends : ∀ finish, eraseUniqueWith finish tr k s
          = eraseLoopWith finish tr (tr.defaultTransform k) n 0 r s := by
        intro finish
        rw [unfolded, Exec.bind_of_ok (isLeaf_inner inner), if_neg Bool.false_ne_true]
      simp only [descends]
      exact (eraseLoopWith_walk holds n (by omega) ctx rep clear owned inner).imp id .inr

/-- **`erase_unique`** drops the entry of the key and returns how many elements it has erased. -/
theorem eraseUnique_spec [LawfulVariant H] {s : St H K V n} {e : Addr} {own : Set Addr}
    (admits : Admits H n) (holds : Holds tr s e M own) (k : K) :
    (M (tr.defaultTransform k) = none ∧ eraseUnique tr k s = .ok 0 s) ∨
      (tr.defaultTransform k ∈ dom M ∧ ∃ s' own', eraseUnique tr k s = .ok 1 s' ∧
        Holds tr s' e (drop M (tr.defaultTransform k)) own' ∧ Moves s s' own own') := by
  rw [eraseUnique_eq]
  rcases eraseUniqueWith_walk holds k with ⟨absent, run⟩ | ⟨r, v, root, leaf, same, run⟩ |
    ⟨p, q, c, v, d, h, l, sub, own', site, run⟩
  · exact .inl ⟨absent, run detach⟩
  · right
    obtain ⟨table, s', detached, holds', moves⟩ := detachRoot_spec holds root leaf
    rw [same] at holds'
    refine ⟨?_, s', _, (run detach).trans (Exec.bind_of_ok detached _), holds', moves⟩
    rw [table, dom_single]
    exact same.symm
  · right
    obtain ⟨s', own'', detached, holds', moves⟩ := detach_spec admits holds site
    exact ⟨mem_dom_of_eq_some site.entry, s', own'', (run detach).trans (Exec.bind_of_ok detached _),
      holds', moves⟩

/-! ### `erase`, by iterator -/

/-- `erase`, by iterator, with what is done at a leaf below an inner node. -/
def eraseAtWith (finish : Addr → Byte → Key n → Run H K V n Unit) (tr : Traits K V n) (it : Addr) :
    Run H K V n Addr := do
  let result ← increment tr it
  let value ← leafValue it
  let tree ← this
  let key := tree.keyTransform (tr.keyOfValue value)
  if some it = tree.root then do
    delete it
    setRoot none
    updateCount (· - 1)
    pure result
  else do
    let node ← deref (← parentOf it)
    let header ← headerOf node
    let keyByte ← chunkAt key (Header.branch header)
    finish node keyByte key
    pure result

omit [HeaderSpec H] in
theorem eraseAt_eq (it : Addr) : (eraseAt tr it : Run H K V n Addr) = eraseAtWith detach tr it := by
  unfold eraseAt eraseAtWith
  simp only [detach, bind_assoc]

/-- **What `erase` does** at the leaf of a stored key: it detaches the leaf and returns the iterator that
follows it. -/
theorem eraseAtWith_walk {s : St H K V n} {e it : Addr} {own : Set Addr} {v : V}
    (holds : Holds tr s e M own) (stored : M k = some (it, v)) :
    ∃ result, Designates M e (above M k) result ∧
      ((s.tree.root = some it ∧ s.mem.get it = some ⟨some s.tree.dummyNode, .leaf v⟩ ∧
          ∀ finish, eraseAtWith finish tr it s = (detachRoot it >>= fun _ => pure result) s) ∨
        ∃ p q d h l sub own', LeafSite tr s e k M own p q it v d h l sub own' ∧
          ∀ finish, eraseAtWith finish tr it s = (finish q (k.letter (branch h)) k >>= fun _ => pure result) s) := by
  obtain ⟨result, next, follows⟩ := increment_spec holds stored
  obtain ⟨key, -, -, -, -⟩ := holds.entry stored
  rcases root : s.tree.root with _ | r
  · rw [holds.eq_empty root] at stored
    cases stored
  obtain ⟨rest, ctx, rep, clear, rfl⟩ := holds.path root k
  obtain ⟨q, d, own', ctx', leaf, alone, owned, off⟩ :=
    Ctx.locate stored (n + 1) (by omega) ctx rep clear
  have unfolded : ∀ finish, eraseAtWith finish tr it s = (if some it = s.tree.root then do
        delete it
        setRoot none
        updateCount (· - 1)
        pure result
      else do
        let node ← deref (← parentOf it)
        let header ← headerOf node
        let keyByte ← chunkAt k (branch header)
        finish node keyByte k
        pure result : Run H K V n Addr) s := by
    intro finish
    unfold eraseAtWith
    rw [Exec.bind_of_ok next, Exec.bind_of_ok (leafValue_ok leaf), Exec.bind_of_ok (this_apply s)]
    simp only [holds.key_eq, key]
  refine ⟨result, follows, ?_⟩
  by_cases atRoot : it = r
  · subst atRoot
    obtain ⟨body, top⟩ := rep.top_cell
    rw [leaf, Option.some.injEq, Cell.mk.injEq] at top
    rw [top.1] at leaf
    refine .inl ⟨rfl, leaf, fun finish => ?_⟩
    rw [unfolded, if_pos root.symm]
    simp only [detachRoot, bind_assoc]
  · cases ctx' with
    | top _ _ link =>
        rw [root, Option.some.injEq] at link
        exact absurd link.symm atRoot
    | @step p _ _ d' own'' h l sub outer node slot fits broad clear' =>
        rw [← dom_under] at broad
        refine .inr ⟨p, q, d', h, l, sub, own'', ⟨stored, outer, node, slot, fits, broad, clear', leaf,
          alone, owned, off⟩, fun finish => ?_⟩
        have elsewhere : some it ≠ s.tree.root := by
          rw [root]
          exact fun same => atRoot (Option.some.inj same)
        rw [unfolded, if_neg elsewhere, Exec.bind_of_ok (parentOf_ok leaf)]
        simp only [deref_some, Exec.pure_bind_apply]
        rw [Exec.bind_of_ok (headerOf_ok node.cell), Exec.bind_of_ok (chunkAt_ok k node.bound s)]

/-- **`erase`** of the element an iterator points to drops its entry and returns the iterator that
follows it. -/
theorem eraseAt_spec [LawfulVariant H] {s : St H K V n} {e it : Addr} {own : Set Addr} {v : V}
    (admits : Admits H n) (holds : Holds tr s e M own) (stored : M k = some (it, v)) :
    ∃ result s' own', eraseAt tr it s = .ok result s' ∧ Holds tr s' e (drop M k) own' ∧
      Moves s s' own own' ∧ Designates M e (above M k) result := by
  rw [eraseAt_eq]
  obtain ⟨result, follows, ⟨root, leaf, run⟩ | ⟨p, q, d, h, l, sub, own', site, run⟩⟩ :=
    eraseAtWith_walk holds stored
  · obtain ⟨-, s', detached, holds', moves⟩ := detachRoot_spec holds root leaf
    rw [(holds.entry stored).1] at holds'
    exact ⟨result, s', _, (run detach).trans (Exec.bind_of_ok detached _), holds', moves, follows⟩
  · obtain ⟨s', own'', detached, holds', moves⟩ := detach_spec admits holds site
    exact ⟨result, s', own'', (run detach).trans (Exec.bind_of_ok detached _), holds', moves, follows⟩

/-- A leaf below an inner node is not the root. -/
theorem LeafSite.ne_root {s : St H K V n} {p q c r e : Addr} {d : ℕ} {own own' : Set Addr} {h : H}
    {l : Layout} {sub : Byte → Set Addr} {v v' : V}
    (site : LeafSite tr s e k M own p q c v d h l sub own')
    (leaf : s.mem.get r = some ⟨some s.tree.dummyNode, .leaf v'⟩) : c ≠ r := by
  rintro rfl
  have here := site.leaf
  rw [leaf, Option.some.injEq, Cell.mk.injEq, Option.some.injEq] at here
  have cell := site.node.cell
  rw [← here.1, site.outer.sentinel.2.1] at cell
  cases cell

/-- **`erase` and `erase_unique`** of the same element leave the same state. -/
theorem eraseUnique_of_eraseAt [LawfulVariant H] {s s' : St H K V n} {e it result : Addr}
    {own : Set Addr} {v : V} {k : K} (holds : Holds tr s e M own)
    (stored : M (tr.defaultTransform k) = some (it, v)) (run : eraseAt tr it s = .ok result s') :
    eraseUnique tr k s = .ok 1 s' := by
  rw [eraseAt_eq] at run
  rw [eraseUnique_eq]
  have returned : ∀ {body : Run H K V n Unit} {result' : Addr},
      eraseAtWith detach tr it s = (body >>= fun _ => pure result') s →
      (body >>= fun _ => pure 1) s = .ok 1 s' := by
    intro body result' same
    rw [run] at same
    obtain ⟨done, t, first, rest⟩ := Exec.bind_eq_ok.mp same.symm
    cases rest
    exact Exec.bind_of_ok first _
  obtain ⟨result', -, erased⟩ := eraseAtWith_walk holds stored
  rcases eraseUniqueWith_walk holds k with ⟨absent, -⟩ | ⟨r, v', root, leaf, same, run'⟩ |
    ⟨p, q, c, v', d, h, l, sub, own', site, run'⟩
  · rw [absent] at stored
    cases stored
  · rcases erased with ⟨root', -, run₁⟩ | ⟨p, q, d, h, l, sub, own', site, -⟩
    · rw [root, Option.some.injEq] at root'
      exact (run' detach).trans (root' ▸ returned (run₁ detach))
    · obtain ⟨table, -⟩ := detachRoot_spec holds root leaf
      rw [table, single_apply, if_pos same.symm, Option.some.injEq, Prod.mk.injEq] at stored
      exact absurd stored.1.symm (site.ne_root leaf)
  · have entry := site.entry
    rw [stored, Option.some.injEq, Prod.mk.injEq] at entry
    obtain ⟨rfl, rfl⟩ := entry
    rcases erased with ⟨root', leaf, -⟩ | ⟨p', q', d', h', l', sub', own'', site', run₁⟩
    · exact absurd rfl (site.ne_root leaf)
    · have here := site.leaf
      rw [site'.leaf, Option.some.injEq, Cell.mk.injEq, Option.some.injEq] at here
      obtain ⟨rfl, -⟩ := here
      have cell := site.node.cell
      rw [site'.node.cell, Option.some.injEq, Cell.mk.injEq, Body.inner.injEq] at cell
      obtain ⟨-, rfl, -⟩ := cell
      exact (run' detach).trans (returned (run₁ detach))

/-! ### `clear` -/

omit [Variant H] [HeaderSpec H] in
/-- Children with disjoint subtrees are cleared and deleted one by one. -/
theorem clearEach_spec (mem : Memory (Cell H V)) (calls : ℕ) {l : Layout} {sub : Byte → Set Addr}
    (kid : ∀ b c, l.child b = some c → c ∈ sub b ∧ ∀ s : St H K V n, Memory.Same mem s.mem (sub b) →
      ∃ mem', clearBelow calls c s = .ok ⟨⟩ (s.withMem mem') ∧
        Memory.Wipes s.mem mem' (sub b \ {c}) ∧ ∃ cell, mem'.get c = some cell)
    (disjoint : ∀ b b', b ≠ b' → Disjoint (sub b) (sub b')) :
    ∀ (bytes : List Byte) (s : St H K V n), bytes.Nodup → (∀ b ∈ bytes, l.child b ≠ none) →
      (∀ b ∈ bytes, Memory.Same mem s.mem (sub b)) →
      ∃ mem', (bytes.map fun b => (.ok (l.child b) : Except Fault (Option Addr))).forM (fun slot => do
          let child ← deref (← Exec.lift slot)
          clearBelow calls child
          delete child : Except Fault (Option Addr) → Run H K V n Unit) s
            = .ok ⟨⟩ (s.withMem mem') ∧ Memory.Wipes s.mem mem' (⋃ b ∈ bytes, sub b)
  | [], s, _, _, _ => ⟨s.mem, rfl, by simpa using Memory.Wipes.empty s.mem⟩
  | b :: bytes, s, nodup, present, same => by
      obtain ⟨c, child⟩ := Option.ne_none_iff_exists'.mp (present b List.mem_cons_self)
      obtain ⟨top, below⟩ := kid b c child
      obtain ⟨mem₁, run, wipes, cell, live⟩ := below s (same b List.mem_cons_self)
      obtain ⟨absent, nodup'⟩ := List.nodup_cons.mp nodup
      have wipes' : Memory.Wipes s.mem (mem₁.free c) (sub b) := by
        have both := wipes.trans (Memory.wipes_free mem₁ c)
        rwa [Set.sdiff_union_of_subset (Set.singleton_subset_iff.mpr top)] at both
      have same' : ∀ b' ∈ bytes, Memory.Same mem (mem₁.free c) (sub b') := fun b' inside =>
        (same b' (List.mem_cons_of_mem b inside)).trans
          (wipes'.same (disjoint b b' fun equal => absent (equal ▸ inside)))
      obtain ⟨mem', run', rest⟩ := clearEach_spec mem calls kid disjoint bytes (s.withMem (mem₁.free c)) nodup'
        (fun b' inside => present b' (List.mem_cons_of_mem b inside)) same'
      refine ⟨mem', ?_, ?_⟩
      · have first : (do
            let child ← deref (← Exec.lift (.ok (l.child b)))
            clearBelow calls child
            delete child : Run H K V n Unit) s = .ok ⟨⟩ (s.withMem (mem₁.free c)) := by
          rw [child, Exec.bind_of_ok (Exec.lift_ok _ _)]
          exact (Exec.bind_of_ok run _).trans (delete_ok (s := s.withMem mem₁) live)
        exact (Exec.bind_of_ok first _).trans run'
      · have both := wipes'.trans rest
        simpa using both

/-- **`clear`** of a node deletes what is below it. -/
theorem clearBelow_spec {mem : Memory (Cell H V)} {p a : Addr} {d : ℕ} {m : Contents n V}
    {own : Set Addr} (rep : Rep tr mem p a d m own) : ∀ (calls : ℕ) (s : St H K V n),
    n < calls + d → Memory.Same mem s.mem own →
    ∃ mem', clearBelow calls a s = .ok ⟨⟩ (s.withMem mem') ∧
      Memory.Wipes s.mem mem' (own \ {a}) ∧ ∃ cell, mem'.get a = some cell := by
  induction rep with
  | @leaf p a d v cell le =>
      intro calls s enough same
      obtain ⟨calls, rfl⟩ : ∃ c, calls = c + 1 := ⟨calls - 1, by omega⟩
      have here := (same a rfl).trans cell
      refine ⟨s.mem, ?_, by simpa using Memory.Wipes.empty s.mem, _, here⟩
      rw [clearBelow, Exec.bind_of_ok (load_ok here)]
      rfl
  | @inner p a d m h l sub cell wf fits bound shared describes broad bare kid apart disjoint ih =>
      intro calls s enough same
      obtain ⟨v, member⟩ := (HeaderSpec.broad_nontrivial broad).nonempty
      have le : d ≤ branch h := HeaderSpec.depth_le (describes v member)
      obtain ⟨calls, rfl⟩ : ∃ c, calls = c + 1 := ⟨calls - 1, by omega⟩
      have here := (same a (Set.mem_insert a _)).trans cell
      have all : (⋃ b ∈ l.byteList, sub b) = ⋃ b, sub b := by
        ext x
        simp only [Set.mem_iUnion]
        refine ⟨fun ⟨b, _, inside⟩ => ⟨b, inside⟩, fun ⟨b, inside⟩ => ⟨b, ?_, inside⟩⟩
        rw [Layout.mem_byteList wf]
        intro none
        rw [(bare b none).2] at inside
        exact inside
      have notBelow : a ∉ ⋃ b, sub b := fun inside => by
        obtain ⟨b, inside⟩ := Set.mem_iUnion.mp inside
        exact apart b inside
      obtain ⟨mem', run, wipes⟩ := clearEach_spec (n := n) (K := K) mem calls
        (fun b c child => ⟨(kid b c child).top_mem, fun s same => ih b c child calls s (by omega) same⟩)
        disjoint l.byteList s (Layout.nodup_byteList wf) (fun b => (Layout.mem_byteList wf b).mp)
        fun b _ => same.mono fun x inside => mem_around_of_sub inside
      rw [all] at wipes
      refine ⟨mem', ?_, ?_, _, (wipes.get a notBelow).trans here⟩
      · rw [clearBelow, Exec.bind_of_ok (load_ok here)]
        simp only [Layout.members_eq wf]
        exact run
      · rwa [Set.insert_sdiff_self_of_notMem notBelow]

/-- **`clear`** empties the container and deletes every node but the sentinel and the end leaf. -/
theorem clear_spec {s : St H K V n} {e : Addr} {own : Set Addr} (holds : Holds tr s e M own) :
    ∃ s', clear s = .ok ⟨⟩ s' ∧ Holds tr s' e Table.empty {s.tree.dummyNode, e} ∧
      Moves s s' own {s.tree.dummyNode, e} ∧
      Memory.Wipes s.mem s'.mem (own \ {s.tree.dummyNode, e}) := by
  unfold clear
  rw [Exec.bind_of_ok (this_apply s)]
  rcases root : s.tree.root with _ | r
  · have whole := holds.whole
    rw [root] at whole
    obtain ⟨rfl, rfl, endLeaf, link, sentinel⟩ := whole.of_none
    refine ⟨(s.withRoot none).withCount 0, rfl, ⟨.empty sentinel endLeaf, by simp, holds.stateless,
      holds.calm⟩, ⟨Memory.Keeps.refl _ _, Memory.Renews.refl _ _, rfl⟩, ?_⟩
    rw [Set.sdiff_self]
    exact Memory.Wipes.empty s.mem
  · obtain ⟨rest, ctx, rep, apart, rfl⟩ := holds.path root (tr.defaultTransform tr.defaultKey)
    obtain ⟨-, sentinel, endLeaf, -, -⟩ := ctx.sentinel
    obtain ⟨mem₁, run, wipes, cell, live⟩ :=
      clearBelow_spec rep (levels n) s (by unfold levels; omega) (Memory.Same.refl _ _)
    have wipes' : Memory.Wipes s.mem (mem₁.free r) rest := by
      have both := wipes.trans (Memory.wipes_free mem₁ r)
      rwa [Set.sdiff_union_of_subset (Set.singleton_subset_iff.mpr rep.top_mem)] at both
    have kept := wipes'.same apart.symm
    refine ⟨((s.withMem (mem₁.free r)).withRoot none).withCount 0, ?_,
      ⟨.empty ((kept _ (Or.inl rfl)).trans sentinel) ((kept _ (Or.inr rfl)).trans endLeaf), by simp,
        holds.stateless, wipes'.failAt.trans holds.calm⟩,
      ⟨wipes'.keeps.mono Set.subset_union_right, ?_, rfl⟩, ?_⟩
    · refine (Exec.bind_of_ok run _).trans ?_
      exact Exec.bind_of_ok (delete_ok (s := s.withMem mem₁) live) _
    · refine (Memory.Renews.of_next _ wipes'.next).drop Set.subset_union_left fun x inside outside => ?_
      exact wipes'.gone x (inside.resolve_left outside)
    · rwa [Set.union_sdiff_left, apart.symm.sdiff_eq_left]

end CppArt
