/-
**The stored transformer is the one used.**

A node represents the same table for two transformers that agree on the keys of its values. So an inner
node is passed or entered in the same way, and the loops, which follow the path of a key, run alike.

* `StoringVariant`: the values for which an inner node is passed and entered alike;
* `boundLoop_storing`, `eraseLoop_storing`, `insertLoop_storing`: the loops, by induction on the steps;
* `StoredHistory.holds`, `stored_transformer`.
-/

import CppArt.Model.Stored
import CppArt.Proof.ArPrefixTree
import CppArt.Proof.ArTree
import CppArt.Proof.EraseRange
import CppArt.Proof.World

namespace CppArt

open Table

variable {H K V : Type} {n : ℕ} {tr : Traits K V n} {t : K → Key n}

theorem Traits.SameFor.keyOf {x : V} (same : tr.SameFor t x) : tr.keyOf x = (tr.storing t).keyOf x := same

/-! ### Inner nodes -/

/-- **The values for which inner nodes are passed and entered alike.** -/
class StoringVariant (H : Type) [Variant H] [HeaderSpec H] where
  /-- The kind of values. -/
  Kind {K V : Type} {n : ℕ} : Traits K V n → (K → Key n) → V → Prop
  /-- Erasures and ordered searches. -/
  pass_storing {K V : Type} {n : ℕ} {tr : Traits K V n} {t : K → Key n} {s : St H K V n} {p a : Addr}
    {h : H} {l : Layout} {d : ℕ} {m : Contents n V} {own : Set Addr} {k : Key n}
    (rep : Rep (tr.storing t) s.mem p a d m own) (kind : ∀ w it v, m w = some (it, v) → Kind tr t v)
    (cell : s.mem.get a = some ⟨some p, .inner h l⟩) (agree : ∀ v ∈ dom m, Word.Agree d k v) :
    Variant.pass tr a k d s = Variant.pass (tr.storing t) a k d s
  /-- Insertions. -/
  enter_storing {K V : Type} {n : ℕ} {tr : Traits K V n} {t : K → Key n} {s : St H K V n} {p a : Addr}
    {h : H} {l : Layout} {d : ℕ} {m : Contents n V} {own : Set Addr} {k : Key n}
    (rep : Rep (tr.storing t) s.mem p a d m own) (kind : ∀ w it v, m w = some (it, v) → Kind tr t v)
    (cell : s.mem.get a = some ⟨some p, .inner h l⟩) (agree : ∀ v ∈ dom m, Word.Agree d k v) :
    Variant.enter tr a k d s = Variant.enter (tr.storing t) a k d s

instance : StoringVariant DepthHeader where
  Kind _ _ _ := True
  pass_storing _ _ _ _ := rfl
  enter_storing _ _ _ _ := rfl

namespace ArPrefixTree

variable {s : ArPrefixTree.State K V n} {a p : Addr} {h : PrefixHeader} {l : Layout} {d : ℕ} {k : Key n}
  {m : Contents n V} {own : Set Addr}

/-- **The least key below a node** is the same. -/
theorem minKey_storing (rep : Rep (tr.storing t) s.mem p a d m own)
    (same : ∀ w it v, m w = some (it, v) → tr.SameFor t v) :
    ∃ u, minKey tr a s = .ok u s ∧ minKey (tr.storing t) a s = .ok u s := by
  obtain ⟨w, it, v, run, entry, -⟩ := extreme_spec rep .up
  obtain ⟨-, -, q, leaf⟩ := rep.leaf_cell entry
  refine ⟨tr.keyOf v, ?_, ?_⟩
  · unfold minKey
    rw [Exec.bind_of_ok run, Exec.bind_of_ok (leafValue_ok leaf)]
    rfl
  · unfold minKey
    rw [Exec.bind_of_ok run, Exec.bind_of_ok (leafValue_ok leaf), (same w it v entry).keyOf]
    rfl

/-- The prefix is compared in the same way. -/
theorem prefixMismatchPos_storing {w : Key n} (cell : s.mem.get a = some ⟨some p, .inner h l⟩)
    (spells : h.Spells h.depth w) (bound : branch h < n)
    (least : maxPrefixLength < h.prefixLength →
      ∃ u, minKey tr a s = .ok u s ∧ minKey (tr.storing t) a s = .ok u s) :
    prefixMismatchPos tr a k s = prefixMismatchPos (tr.storing t) a k s := by
  have le : h.depth + h.prefixLength < n := bound
  have short : min h.prefixLength maxPrefixLength ≤ h.prefixLength := min_le_left _ _
  unfold prefixMismatchPos
  rw [Exec.bind_of_ok (headerOf_ok cell), Exec.bind_of_ok (headerOf_ok cell)]
  rcases mismatchFrom_spec (s := s) (k := k) w (min h.prefixLength maxPrefixLength) 0 (by omega)
    (fun i _ lt => storedAt_ok spells (by omega)) with ⟨run, -⟩ | ⟨j, -, -, run, -⟩
  · rw [Exec.bind_of_ok run, Exec.bind_of_ok run]
    simp only []
    by_cases long : maxPrefixLength < h.prefixLength
    · obtain ⟨u, read, read'⟩ := least long
      rw [if_pos long, if_pos long, Exec.bind_of_ok read, Exec.bind_of_ok read']
    · rw [if_neg long, if_neg long]
  · rw [Exec.bind_of_ok run, Exec.bind_of_ok run]

/-- The prefix is split in the same way. -/
theorem splitPrefixIntoParent_storing {pos : ℕ} (cell : s.mem.get a = some ⟨some p, .inner h l⟩)
    (least : maxPrefixLength ≤ h.prefixLength →
      ∃ u, minKey tr a s = .ok u s ∧ minKey (tr.storing t) a s = .ok u s) :
    splitPrefixIntoParent tr a pos s = splitPrefixIntoParent (tr.storing t) a pos s := by
  unfold splitPrefixIntoParent
  rw [Exec.bind_of_ok (headerOf_ok cell), Exec.bind_of_ok (headerOf_ok cell)]
  by_cases short : h.prefixLength < maxPrefixLength
  · rw [if_pos short, if_pos short]
  · obtain ⟨u, read, read'⟩ := least (not_lt.mp short)
    rw [if_neg short, if_neg short, Exec.bind_of_ok read, Exec.bind_of_ok read']

/-- The prefix of a node spells the bytes of the keys below it. -/
theorem exists_spells (rep : Rep tr s.mem p a d m own) (cell : s.mem.get a = some ⟨some p, .inner h l⟩) :
    branch h < n ∧ ∃ w : Key n, h.Spells h.depth w := by
  obtain ⟨w, member, -⟩ := minKey_spec rep
  rcases rep.inspect with ⟨v, cell', -, -⟩ | ⟨h', l', cell', wf, bound, -, shared, describes⟩
  · rw [cell] at cell'
    cases cell'
  · rw [cell] at cell'
    cases cell'
    obtain ⟨rfl, spells⟩ := describes w member
    exact ⟨bound, w, spells⟩

/-- The least key below a node with a long prefix is the same: such keys are long. -/
theorem least_storing (rep : Rep (tr.storing t) s.mem p a d m own)
    (kind : ∀ w it v, m w = some (it, v) → maxPrefixLength < n → tr.SameFor t v) (bound : branch h < n)
    (long : maxPrefixLength ≤ h.prefixLength) :
    ∃ u, minKey tr a s = .ok u s ∧ minKey (tr.storing t) a s = .ok u s := by
  have le : h.depth + h.prefixLength < n := bound
  exact minKey_storing rep fun w it v entry => kind w it v entry (by omega)

end ArPrefixTree

open ArPrefixTree in
instance : StoringVariant PrefixHeader where
  Kind {K V n} tr t x := maxPrefixLength < n → tr.SameFor t x
  pass_storing {K V n tr t s p a h l d m own k} rep kind cell agree := by
    obtain ⟨bound, w, spells⟩ := exists_spells rep cell
    have compared := prefixMismatchPos_storing (k := k) cell spells bound
      fun long => least_storing rep kind bound long.le
    show ArPrefixTree.pass tr a k d s = ArPrefixTree.pass (tr.storing t) a k d s
    unfold ArPrefixTree.pass
    exact Exec.bind_congr_left compared _
  enter_storing {K V n tr t s p a h l d m own k} rep kind cell agree := by
    obtain ⟨bound, w, spells⟩ := exists_spells rep cell
    have compared := prefixMismatchPos_storing (k := k) cell spells bound
      fun long => least_storing rep kind bound long.le
    obtain ⟨-, pos, run, -⟩ := prefixMismatchPos_spec (k := k) rep cell agree
    show ArPrefixTree.enter tr a k d s = ArPrefixTree.enter (tr.storing t) a k d s
    unfold ArPrefixTree.enter
    rw [Exec.bind_of_ok (compared.trans run), Exec.bind_of_ok run, Exec.bind_of_ok (headerOf_ok cell),
      Exec.bind_of_ok (headerOf_ok cell)]
    by_cases inside : pos < h.prefixLength
    · rw [if_pos inside, if_pos inside]
      exact Exec.bind_congr_left (splitPrefixIntoParent_storing cell (least_storing rep kind bound)) _
    · rw [if_neg inside, if_neg inside]

/-! ### Loops -/

section Loops

variable [Variant H] [HeaderSpec H] [LawfulVariant H] [StoringVariant H] {M : Contents n V}
  {s : St H K V n} {e : Addr} {k : Key n}

omit [LawfulVariant H] in
theorem kind_under {d : ℕ} (kind : ∀ w it v, M w = some (it, v) → StoringVariant.Kind H tr t v) :
    ∀ w it v, under M k d w = some (it, v) → StoringVariant.Kind H tr t v := by
  intro w it v entry
  unfold under at entry
  split_ifs at entry
  exact kind w it v entry

/-- **The loop of `lower_bound` and `upper_bound`.** -/
theorem boundLoop_storing (accept : Ordering → Bool)
    (kind : ∀ w it v, M w = some (it, v) → StoringVariant.Kind H tr t v) :
    ∀ (steps : ℕ) {p c : Addr} {prev : Option Addr} {d : ℕ} {own' rest : Set Addr},
      Ctx (tr.storing t) s.mem s.tree.dummyNode e s.tree.root k M (dom M) p c d own' →
      Rep (tr.storing t) s.mem p c d (under M k d) rest → Disjoint own' rest →
      boundLoop tr accept k steps d (some c) prev s = boundLoop (tr.storing t) accept k steps d (some c) prev s
  | 0, p, c, prev, d, own', rest, ctx, rep, clear => rfl
  | steps + 1, p, c, prev, d, own', rest, ctx, rep, clear => by
      rw [boundLoop, boundLoop, if_pos (Nat.lt_succ_of_le ctx.depth_le), if_pos (Nat.lt_succ_of_le ctx.depth_le)]
      simp only []
      rcases rep.inspect with ⟨v, cell, table, rfl⟩ | ⟨h, l, cell, wf, bound, le, shared, describes⟩
      · rw [Exec.bind_of_ok (isLeaf_leaf cell), Exec.bind_of_ok (isLeaf_leaf cell)]
        rfl
      · have agree : ∀ v ∈ dom (under M k d), Word.Agree d k v := fun v member => (mem_dom_under.mp member).1
        rw [Exec.bind_of_ok (isLeaf_inner cell), Exec.bind_of_ok (isLeaf_inner cell),
          if_neg Bool.false_ne_true, if_neg Bool.false_ne_true,
          Exec.bind_congr_left (StoringVariant.pass_storing rep (kind_under kind) cell agree)]
        rcases LawfulVariant.pass_spec rep cell agree with ⟨run, sharedK⟩ | ⟨run, apart⟩
        · rw [Exec.bind_of_ok run, Exec.bind_of_ok run]
          simp only []
          rw [Exec.bind_of_ok (chunkAt_ok k bound s), Exec.bind_of_ok (chunkAt_ok k bound s),
            Exec.bind_of_ok (findChild_ok cell wf _), Exec.bind_of_ok (findChild_ok cell wf _)]
          rcases slot : l.child (k.letter (branch h)) with _ | c'
          · cases steps <;> rfl
          · obtain ⟨own₁, rest₁, ctx₁, rep₁, clear₁, -⟩ := ctx.descend rep clear cell sharedK slot
            exact boundLoop_storing accept kind steps ctx₁ rep₁ clear₁
        · rw [Exec.bind_of_ok run, Exec.bind_of_ok run]

/-- **The loop of `erase_unique`.** -/
theorem eraseLoop_storing (kind : ∀ w it v, M w = some (it, v) → StoringVariant.Kind H tr t v) :
    ∀ (steps : ℕ) {p c : Addr} {d : ℕ} {h : H} {l : Layout} {own' rest : Set Addr},
      Ctx (tr.storing t) s.mem s.tree.dummyNode e s.tree.root k M (dom M) p c d own' →
      Rep (tr.storing t) s.mem p c d (under M k d) rest → Disjoint own' rest →
      s.mem.get c = some ⟨some p, .inner h l⟩ →
      eraseLoop tr k steps d c s = eraseLoop (tr.storing t) k steps d c s
  | 0, p, c, d, h, l, own', rest, ctx, rep, clear, cell => rfl
  | steps + 1, p, c, d, h, l, own', rest, ctx, rep, clear, cell => by
      rcases rep.inspect with ⟨v, cell', -, -⟩ | ⟨h', l', cell', wf, bound, le, -, describes⟩
      · rw [cell] at cell'
        cases cell'
      · rw [cell] at cell'
        cases cell'
        have agree : ∀ v ∈ dom (under M k d), Word.Agree d k v := fun v member => (mem_dom_under.mp member).1
        rw [eraseLoop, eraseLoop, if_pos (le.trans_lt bound), if_pos (le.trans_lt bound),
          Exec.bind_congr_left (StoringVariant.pass_storing rep (kind_under kind) cell agree)]
        rcases LawfulVariant.pass_spec rep cell agree with ⟨run, sharedK⟩ | ⟨run, apart⟩
        · rw [Exec.bind_of_ok run, Exec.bind_of_ok run]
          simp only []
          rw [Exec.bind_of_ok (chunkAt_ok k bound s), Exec.bind_of_ok (chunkAt_ok k bound s),
            Exec.bind_of_ok (findChild_ok cell wf _), Exec.bind_of_ok (findChild_ok cell wf _)]
          rcases slot : l.child (k.letter (branch h)) with _ | c'
          · rfl
          · obtain ⟨own₁, rest₁, ctx₁, rep₁, clear₁, -⟩ := ctx.descend rep clear cell sharedK slot
            simp only []
            rcases rep₁.inspect with ⟨v, leaf, -, -⟩ | ⟨h₁, l₁, inner, -⟩
            · rw [Exec.bind_of_ok (isLeaf_leaf leaf), Exec.bind_of_ok (isLeaf_leaf leaf)]
              rfl
            · rw [Exec.bind_of_ok (isLeaf_inner inner), Exec.bind_of_ok (isLeaf_inner inner),
                if_neg Bool.false_ne_true, if_neg Bool.false_ne_true]
              exact eraseLoop_storing kind steps ctx₁ rep₁ clear₁ inner
        · rw [Exec.bind_of_ok run, Exec.bind_of_ok run]

/-- **The loop of `insert_unique` and `get_insert_unique_pos`.** -/
theorem insertLoop_storing {α : Type} {limit : ℕ} {duplicate : Addr → Run H K V n α}
    {place : Addr → ℤ → Run H K V n α} (admits : Admits H n) (calm : s.mem.failAt = none)
    (kind : ∀ w it v, M w = some (it, v) → StoringVariant.Kind H tr t v) :
    ∀ (steps : ℕ) {p c prev : Addr} {d : ℕ} {own rest : Set Addr},
      Ctx (tr.storing t) s.mem s.tree.dummyNode e s.tree.root k M (dom M) p c d own →
      Rep (tr.storing t) s.mem p c d (under M k d) rest → Disjoint own rest →
      insertLoop tr limit k duplicate place steps d (some c) prev s
        = insertLoop (tr.storing t) limit k duplicate place steps d (some c) prev s
  | 0, p, c, prev, d, own, rest, ctx, rep, clear => rfl
  | steps + 1, p, c, prev, d, own, rest, ctx, rep, clear => by
      rw [insertLoop, insertLoop, if_pos (Nat.lt_succ_of_le ctx.depth_le),
        if_pos (Nat.lt_succ_of_le ctx.depth_le)]
      simp only []
      rcases rep.inspect with ⟨v, cell, table, rfl⟩ | ⟨h, l, cell, wf, bound, le, shared, describes⟩
      · rw [Exec.bind_of_ok (isLeaf_leaf cell), Exec.bind_of_ok (isLeaf_leaf cell)]
        rfl
      · have agree : ∀ v ∈ dom (under M k d), Word.Agree d k v := fun v member => (mem_dom_under.mp member).1
        rw [Exec.bind_of_ok (isLeaf_inner cell), Exec.bind_of_ok (isLeaf_inner cell),
          if_neg Bool.false_ne_true, if_neg Bool.false_ne_true,
          Exec.bind_congr_left (StoringVariant.enter_storing rep (kind_under kind) cell agree)]
        rcases LawfulVariant.enter_spec admits ctx rep clear cell calm with
          ⟨run, sharedK⟩ | ⟨q, r, s', own', run, opened, -⟩
        · rw [Exec.bind_of_ok run, Exec.bind_of_ok run]
          simp only []
          rw [Exec.bind_of_ok (chunkAt_ok k bound s), Exec.bind_of_ok (chunkAt_ok k bound s),
            Exec.bind_of_ok (findChild_ok cell wf _), Exec.bind_of_ok (findChild_ok cell wf _)]
          rcases slot : l.child (k.letter (branch h)) with _ | c'
          · cases steps <;> rfl
          · obtain ⟨own₁, rest₁, ctx₁, rep₁, clear₁, -⟩ := ctx.descend rep clear cell sharedK slot
            exact insertLoop_storing admits calm kind steps ctx₁ rep₁ clear₁
        · -- the node that has been opened has no child for the key
          obtain @⟨p', q, d', outerOwn, h', l', sub, outer, node, missing, vacant, room, broad, clear'⟩ :=
            opened
          rw [Exec.bind_of_ok run, Exec.bind_of_ok run]
          simp only []
          rw [Exec.bind_of_ok (chunkAt_ok k node.bound s'), Exec.bind_of_ok (chunkAt_ok k node.bound s'),
            Exec.bind_of_ok (findChild_ok node.cell node.wf _),
            Exec.bind_of_ok (findChild_ok node.cell node.wf _), missing]
          cases steps <;> rfl

omit [HeaderSpec H] [LawfulVariant H] [StoringVariant H] in
/-- The loop of `find` does not use the default transformer. -/
theorem findLoop_storing : ∀ (steps depth : ℕ) (current : Option Addr),
    (findLoop tr k steps depth current : Run H K V n Addr) = findLoop (tr.storing t) k steps depth current
  | 0, _, _ => rfl
  | steps + 1, depth, current => by
      simp only [findLoop, findLoop_storing steps]
      rfl

end Loops

/-! ### Iterators -/

/-- The neighbour of the sentinel does not depend on the key. -/
theorem neighbour_dummy [Header H] {s : St H K V n} {q leaf : Addr} {p root : Option Addr}
    (cell : s.mem.get q = some ⟨p, .dummy root leaf⟩) (dir : Dir) (k k' : Key n) :
    neighbour dir k q s = neighbour dir k' q s := by
  show neighbourFrom dir k (n + 2) q s = neighbourFrom dir k' (n + 2) q s
  rw [neighbourFrom, neighbourFrom, Exec.bind_of_ok (load_ok cell), Exec.bind_of_ok (load_ok cell)]

/-- A node of that type is a sentinel. -/
theorem getType_eq_dummy {s s' : St H K V n} {q : Addr} (run : getType q s = .ok .dummyNode s') :
    ∃ p root leaf, s.mem.get q = some ⟨p, .dummy root leaf⟩ := by
  obtain ⟨⟨p, body⟩, u, loaded, rest⟩ := Exec.bind_eq_ok.mp run
  obtain ⟨here, rfl⟩ := load_eq_ok loaded
  cases body with
  | dummy root leaf => exact ⟨p, root, leaf, here⟩
  | inner h l => exact absurd (EStateM.Result.ok.inj rest).1 (layout_getType_ne l).2
  | leaf v => cases rest
  | baseLeaf => cases rest

/-- **`++` and `--`** from a leaf. -/
theorem advance_storing [Header H] {s : St H K V n} {it : Addr} {p : Option Addr} {v : V}
    (cell : s.mem.get it = some ⟨p, .leaf v⟩) (same : tr.SameFor t v) (dir : Dir) :
    advance tr dir it s = advance (tr.storing t) dir it s := by
  unfold advance
  rw [Exec.bind_of_ok (parentOf_ok cell), Exec.bind_of_ok (parentOf_ok cell)]
  rcases p with _ | q
  · rfl
  · simp only [deref_some, Exec.pure_bind_apply]
    refine Exec.bind_congr_right fun type s' run => ?_
    obtain rfl := getType_eq_ok run
    by_cases top : type = .dummyNode
    · rw [top] at run
      obtain ⟨p', root, leaf, sentinel⟩ := getType_eq_dummy run
      rw [if_pos top, if_pos top]
      exact neighbour_dummy sentinel dir _ _
    · rw [if_neg top, if_neg top, Exec.bind_of_ok (leafValue_ok cell), Exec.bind_of_ok (leafValue_ok cell)]
      show neighbour dir (tr.keyOf v) q s' = neighbour dir ((tr.storing t).keyOf v) q s'
      rw [same.keyOf]

/-! ### Member functions -/

section Members

variable [Variant H] [HeaderSpec H] {M : Contents n V} {s : St H K V n} {e : Addr} {own : Set Addr}

/-- `++` and `--` from the end. -/
theorem advance_end_storing (holds : Holds (tr.storing t) s e M own) (dir : Dir) :
    advance tr dir e s = advance (tr.storing t) dir e s := by
  obtain ⟨⟨link, sentinel⟩, endLeaf⟩ := holds.sentinel
  unfold advance
  rw [Exec.bind_of_ok (parentOf_ok endLeaf), Exec.bind_of_ok (parentOf_ok endLeaf)]
  simp only [deref_some, Exec.pure_bind_apply]
  rw [Exec.bind_of_ok (getType_dummy sentinel), Exec.bind_of_ok (getType_dummy sentinel), if_pos rfl,
    if_pos rfl]
  exact neighbour_dummy sentinel dir _ _

omit [HeaderSpec H] in
theorem find_storing (k : K) : find tr k s = find (tr.storing t) k s := by
  unfold find
  rw [Exec.bind_of_ok (this_apply s), Exec.bind_of_ok (this_apply s)]
  rcases root : s.tree.root with _ | r
  · rfl
  · exact congrFun (findLoop_storing (n + 1) 0 (some r)) s

variable [LawfulVariant H] [StoringVariant H]

theorem bound_storing (holds : Holds (tr.storing t) s e M own)
    (kind : ∀ w it v, M w = some (it, v) → StoringVariant.Kind H tr t v) (accept : Ordering → Bool) (k : K) :
    bound tr accept k s = bound (tr.storing t) accept k s := by
  unfold bound
  rw [Exec.bind_of_ok (this_apply s), Exec.bind_of_ok (this_apply s)]
  rcases root : s.tree.root with _ | r
  · rfl
  · obtain ⟨rest, ctx, rep, clear, -⟩ := holds.path root (s.tree.keyTransform k)
    exact boundLoop_storing accept kind (n + 1) ctx rep clear

theorem insertUnique_storing (admits : Admits H n) (holds : Holds (tr.storing t) s e M own)
    (kind : ∀ w it v, M w = some (it, v) → StoringVariant.Kind H tr t v) (x : V) :
    insertUnique tr x s = insertUnique (tr.storing t) x s := by
  unfold insertUnique
  rw [Exec.bind_of_ok (this_apply s), Exec.bind_of_ok (this_apply s)]
  rcases root : s.tree.root with _ | r
  · rfl
  · obtain ⟨rest, ctx, rep, clear, -⟩ := holds.path root (s.tree.keyTransform (tr.keyOfValue x))
    exact insertLoop_storing admits holds.calm kind (n + 1) ctx rep clear

theorem getInsertUniquePos_storing (admits : Admits H n) (holds : Holds (tr.storing t) s e M own)
    (kind : ∀ w it v, M w = some (it, v) → StoringVariant.Kind H tr t v) (k : Key n) :
    getInsertUniquePos tr k s = getInsertUniquePos (tr.storing t) k s := by
  unfold getInsertUniquePos
  rw [Exec.bind_of_ok (this_apply s), Exec.bind_of_ok (this_apply s)]
  rcases root : s.tree.root with _ | r
  · rfl
  · obtain ⟨rest, ctx, rep, clear, -⟩ := holds.path root k
    exact insertLoop_storing admits holds.calm kind (n + 1) ctx rep clear

omit [Variant H] [HeaderSpec H] [LawfulVariant H] [StoringVariant H] in
/-- A handler around calls that behave the same. -/
theorem onThrow_congr_left {α : Type} {body body' : Run H K V n α} (same : body s = body' s)
    (cleanup : Run H K V n Unit) : onThrow body cleanup s = onThrow body' cleanup s := by
  unfold onThrow
  rw [same]

theorem emplaceUnique_storing (admits : Admits H n) (holds : Holds (tr.storing t) s e M own)
    (kind : ∀ w it v, M w = some (it, v) → StoringVariant.Kind H tr t v) (x : V) :
    emplaceUnique tr x s = emplaceUnique (tr.storing t) x s := by
  have cell : (s.withMem (s.mem.alloc ⟨none, .leaf x⟩)).mem.get s.mem.next = some ⟨none, .leaf x⟩ :=
    Memory.alloc_get_next _ _
  have holds₁ : Holds (tr.storing t) (s.withMem (s.mem.alloc ⟨none, .leaf x⟩)) e M own := holds.frame
    (fun y inside => Memory.alloc_get_of_ne _ _ (holds.whole.lt_next inside).ne) rfl
  unfold emplaceUnique
  rw [Exec.bind_of_ok (onThrow_ok (new_ok _ holds.calm)), Exec.bind_of_ok (onThrow_ok (new_ok _ holds.calm))]
  refine onThrow_congr_left ?_ _
  rw [Exec.bind_of_ok (this_apply _), Exec.bind_of_ok (this_apply _), Exec.bind_of_ok (leafValue_ok cell),
    Exec.bind_of_ok (leafValue_ok cell)]
  exact Exec.bind_congr_left (getInsertUniquePos_storing admits holds₁ kind _) _

theorem eraseUnique_storing (holds : Holds (tr.storing t) s e M own)
    (kind : ∀ w it v, M w = some (it, v) → StoringVariant.Kind H tr t v) (k : K) :
    eraseUnique tr k s = eraseUnique (tr.storing t) k s := by
  unfold eraseUnique
  rw [Exec.bind_of_ok (this_apply s), Exec.bind_of_ok (this_apply s)]
  rcases root : s.tree.root with _ | r
  · rfl
  · obtain ⟨rest, ctx, rep, clear, -⟩ := holds.path root (s.tree.keyTransform k)
    simp only []
    rcases rep.inspect with ⟨v, leaf, -, -⟩ | ⟨h, l, inner, -⟩
    · rw [Exec.bind_of_ok (isLeaf_leaf leaf), Exec.bind_of_ok (isLeaf_leaf leaf)]
      rfl
    · rw [Exec.bind_of_ok (isLeaf_inner inner), Exec.bind_of_ok (isLeaf_inner inner),
        if_neg Bool.false_ne_true, if_neg Bool.false_ne_true]
      exact eraseLoop_storing kind n ctx rep clear inner

omit [HeaderSpec H] [LawfulVariant H] [StoringVariant H] in
theorem eraseAt_storing {it : Addr} {v : V} (stored : Stored s it v) (same : tr.SameFor t v) :
    eraseAt tr it s = eraseAt (tr.storing t) it s := by
  obtain ⟨r, p, -, -, cell⟩ := stored
  unfold eraseAt increment
  exact Exec.bind_congr_left (advance_storing cell same .up) _

/-- **Every member function** does what it does with the stored transformer as the default. -/
theorem perform_storing (admits : Admits H n) (holds : Holds (tr.storing t) s e M own)
    (kind : ∀ w it v, M w = some (it, v) → StoringVariant.Kind H tr t v) {call : Call K V}
    (legal : call.Legal s) {put : V → Prop} (respects : call.Respects tr t put s) :
    perform tr call s = perform (tr.storing t) call s := by
  cases call with
  | insert x => exact Exec.bind_congr_left (insertUnique_storing admits holds kind x) _
  | emplace x => exact Exec.bind_congr_left (emplaceUnique_storing admits holds kind x) _
  | erase k => exact Exec.bind_congr_left (eraseUnique_storing holds kind k) _
  | eraseAt it =>
      obtain ⟨v, stored⟩ := legal
      exact Exec.bind_congr_left (eraseAt_storing stored (respects v stored)) _
  | clear => rfl

/-! ### Iteration -/

omit [LawfulVariant H] [StoringVariant H] in
/-- `++`, repeated, from an element or the end. -/
theorem walk_storing (holds : Holds (tr.storing t) s e M own)
    (same : ∀ it v, Stored s it v → tr.SameFor t v) :
    ∀ (steps : ℕ) (it : Addr), ((∃ v, Stored s it v) ∨ it = e) →
      walk tr .up steps it s = walk (tr.storing t) .up steps it s
  | 0, _, _ => rfl
  | steps + 1, it, place => by
      obtain ⟨next, run, run', later⟩ : ∃ next, advance tr .up it s = .ok next s ∧
          advance (tr.storing t) .up it s = .ok next s ∧ ((∃ v, Stored s next v) ∨ next = e) := by
        rcases place with ⟨v, stored⟩ | rfl
        · obtain ⟨next, run, designates⟩ := increment_spec holds (holds.stored_iff.mp stored)
          obtain ⟨_, _, -, -, cell⟩ := id stored
          refine ⟨next, (advance_storing cell (same it v stored) .up).trans run, run, ?_⟩
          rcases designates with ⟨w, u, entry, -⟩ | ⟨-, rfl⟩
          · exact .inl ⟨u, (holds.stored_of_entry entry).1⟩
          · exact .inr rfl
        · exact ⟨it, (advance_end_storing holds .up).trans (increment_end holds), increment_end holds, .inr rfl⟩
      rw [walk, walk, Exec.bind_of_ok run, Exec.bind_of_ok run',
        Exec.bind_congr_left (walk_storing holds same steps next later)]

omit [LawfulVariant H] [StoringVariant H] in
/-- **An iteration** visits the elements in the order of the stored transformer. -/
theorem visits_storing (holds : Holds (tr.storing t) s e M own)
    (same : ∀ it v, Stored s it v → tr.SameFor t v) : ∃ first last its, beginIt s = .ok first s ∧
      IsEnd s last ∧ Spans tr s first last its ∧ (∀ it, it ∈ its ↔ ∃ v, Stored s it v) ∧
      its.Pairwise fun it it' => ∀ v v', Stored s it v → Stored s it' v' →
        t (tr.keyOfValue v) < t (tr.keyOfValue v') := by
  obtain ⟨ks, lists⟩ := Dir.exists_lists (Set.toFinite (dom M))
  have iterates := holds.iterates lists
  obtain ⟨first, last, run, ends, rest, walked, visited⟩ := iterates.forward
  refine ⟨first, last, _, run, ends, ⟨rest, ?_, visited⟩, iterates.complete, iterates.ascending⟩
  rw [walk_storing holds same _ _ ?_]
  · exact walked
  · rcases beginIt_spec holds with ⟨-, run'⟩ | ⟨w, it, v, run', entry, -⟩
    · cases run.symm.trans run'
      exact .inr rfl
    · cases run.symm.trans run'
      exact .inl ⟨v, (holds.stored_of_entry entry).1⟩

/-- **A container whose values are of the kind** uses the stored transformer. -/
theorem Holds.usesStored (admits : Admits H n) (holds : Holds (tr.storing t) s e M own)
    (kind : ∀ w it v, M w = some (it, v) → StoringVariant.Kind H tr t v) (put : V → Prop) :
    UsesStored tr t put s where
  perform _ legal respects := perform_storing admits holds kind legal respects
  find k := find_storing k
  bound accept k := bound_storing holds kind accept k
  ended dir it ends := by
    rw [holds.isEnd_iff] at ends
    rw [ends]
    exact advance_end_storing holds dir
  advance dir it v stored same := by
    obtain ⟨_, _, -, -, cell⟩ := stored
    exact advance_storing cell same dir
  visits same := visits_storing holds same

end Members

/-! ### Histories -/

/-- A call that has an effect may be made. -/
theorem Call.Effect.legal {s : St H K V n} {m m' : Table Byte n V} {call : Call K V}
    (effect : call.Effect tr s m m') : call.Legal s := by
  cases effect with
  | eraseAt it v stored => exact ⟨v, stored⟩
  | insert x => trivial
  | emplace x => trivial
  | erase k => trivial
  | clear => trivial

/-- The values of the reference map stay of the kind. -/
theorem Call.Effect.kept {s : St H K V n} {m m' : Table Byte n V} {call : Call K V} {kind : V → Prop}
    (effect : call.Effect (tr.storing t) s m m') (respects : call.Respects tr t kind s)
    (kept : ∀ w v, m w = some v → kind v) : ∀ w v, m' w = some v → kind v := by
  have put : ∀ {k : Key n} {x : V}, kind x → ∀ w v, m.putNew k x w = some v → kind v := by
    intro k x right w v entry
    unfold Table.putNew at entry
    split_ifs at entry with absent
    · by_cases here : w = k
      · rw [here, put_self, Option.some.injEq] at entry
        exact entry ▸ right
      · exact kept w v ((put_of_ne m x here).symm.trans entry)
    · exact kept w v entry
  have dropped : ∀ k w v, drop m k w = some v → kind v := by
    intro k w v entry
    unfold drop at entry
    split_ifs at entry
    exact kept w v entry
  cases effect with
  | insert x => exact put respects
  | emplace x => exact put respects
  | erase k => exact dropped _
  | eraseAt it v stored => exact dropped _
  | clear =>
      intro w v entry
      cases entry

section Histories

variable [Variant H] [HeaderSpec H] [LawfulVariant H] [StoringVariant H]

/-- **A history on the container** is one on a container whose default transformer is the stored one, by
induction; the values stay of the kind. -/
theorem StoredHistory.history (admits : Admits H n) {s : St H K V n} {m : Table Byte n V}
    (history : StoredHistory tr t (StoringVariant.Kind H tr t) s m) :
    History (tr.storing t) s m ∧ ∀ w v, m w = some v → StoringVariant.Kind H tr t v := by
  induction history with
  | start calm run =>
      refine ⟨.start calm run, fun w v entry => ?_⟩
      cases entry
  | call history effect respects run ih =>
      obtain ⟨before, kept⟩ := ih
      obtain ⟨e, M, own, holds, rfl⟩ := before.holds admits
      have kind : ∀ w it v, M w = some (it, v) → StoringVariant.Kind H tr t v := fun w it v entry =>
        kept w v (values_eq_some.mpr ⟨it, entry⟩)
      rw [perform_storing admits holds kind effect.legal respects] at run
      exact ⟨before.call effect run, effect.kept respects kept⟩

/-- **After every history** the container uses its transformer. -/
theorem StoredHistory.usesStored (admits : Admits H n) {s : St H K V n} {m : Table Byte n V}
    (history : StoredHistory tr t (StoringVariant.Kind H tr t) s m) :
    Refines (tr.storing t) s m ∧ UsesStored tr t (StoringVariant.Kind H tr t) s := by
  obtain ⟨before, kept⟩ := history.history admits
  refine ⟨before.refines admits, ?_⟩
  obtain ⟨e, M, own, holds, rfl⟩ := before.holds admits
  exact holds.usesStored admits (fun w it v entry => kept w v (values_eq_some.mpr ⟨it, entry⟩)) _

/-- A value of the kind is inserted into an empty container. -/
theorem exists_stored (admits : Admits H n) (tr : Traits K V n) (t : K → Key n) {x : V} (kind : StoringVariant.Kind H tr t x) :
    ∃ (s : St H K V n) (m : Table Byte n V), StoredHistory tr t (StoringVariant.Kind H tr t) s m ∧
      m (t (tr.keyOfValue x)) = some x := by
  obtain ⟨s₀, run₀, -⟩ := init_spec (H := H) (tr.storing t) (rfl : Memory.blank.failAt = none)
    (Tree.uninitialised t) rfl
  have history₀ : StoredHistory tr t (StoringVariant.Kind H tr t) s₀ Table.empty := .start rfl run₀
  have effect : Call.Effect (tr.storing t) s₀ Table.empty (.insert x) _ := .insert x
  obtain ⟨answer, s, run, -⟩ := (history₀.usesStored admits).1.perform _ _ effect
  rw [← (history₀.usesStored admits).2.perform (.insert x) trivial kind] at run
  exact ⟨s, _, history₀.call effect kind run, Table.put_self _ _ _⟩

end Histories

/-! ### Result -/

/-- **The stored transformer is the one used.** In an `ar_tree`, by every call but through an iterator
that does not agree with the default one; in an `ar_prefix_tree` with keys of more than eight bytes, when
the two agree on the values that are inserted. -/
theorem stored_transformer (tr : Traits K V n) (t : K → Key n) :
    (∀ (s : ArTree.State K V n) (m : Table Byte n V), StoredHistory tr t (fun _ => True) s m →
      Refines (tr.storing t) s m ∧ UsesStored tr t (fun _ => True) s) ∧
    ∀ (s : ArPrefixTree.State K V n) (m : Table Byte n V), n ≤ 65536 →
      StoredHistory tr t (fun x => maxPrefixLength < n → tr.SameFor t x) s m →
      Refines (tr.storing t) s m ∧ UsesStored tr t (fun x => maxPrefixLength < n → tr.SameFor t x) s :=
  ⟨fun _ _ history => history.usesStored (H := DepthHeader) trivial,
    fun _ _ fits history => history.usesStored (H := PrefixHeader) fits⟩

/-- A transformer that reverses the order of one-byte keys. -/
def reversed (k : Key 1) : Key 1 := ⟨#v[255 - k.letter 0]⟩

/-- Both trees with that transformer. -/
theorem stored_transformer_reversed :
    (∃ (s : ArTree.State (Key 1) (Key 1) 1) (m : Table Byte 1 (Key 1)), m ⟨#v[248]⟩ = some ⟨#v[7]⟩ ∧
      Refines ((Traits.identity 1).storing reversed) s m) ∧
    ∃ (s : ArPrefixTree.State (Key 1) (Key 1) 1) (m : Table Byte 1 (Key 1)), m ⟨#v[248]⟩ = some ⟨#v[7]⟩ ∧
      Refines ((Traits.identity 1).storing reversed) s m := by
  have key : reversed ((Traits.identity 1).keyOfValue ⟨#v[7]⟩) = ⟨#v[248]⟩ := by decide
  have fits : 1 ≤ 65536 := by decide
  obtain ⟨s, m, history, entry⟩ :=
    exists_stored (H := DepthHeader) trivial (Traits.identity 1) reversed (x := ⟨#v[7]⟩) trivial
  obtain ⟨s', m', history', entry'⟩ :=
    exists_stored (H := PrefixHeader) fits (Traits.identity 1) reversed (x := ⟨#v[7]⟩)
      fun long => absurd long (by decide)
  rw [key] at entry entry'
  exact ⟨⟨s, m, entry, ((stored_transformer _ reversed).1 s m history).1⟩,
    s', m', entry', ((stored_transformer _ reversed).2 s' m' fits history').1⟩

end CppArt
