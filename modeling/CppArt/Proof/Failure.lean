/-
**Insertions in which an allocation fails.**

No insertion writes to the tree before its first allocation (`Cautious`). When that one throws, the tree is
as it was; `emplace_unique` has its leaf by then and deletes it. So a history in which the allocations
that throw are of this kind goes on as if the calls that threw had not been made.

* `insertLoop_cautious`: the descent of both insertions, for any end that is cautious itself;
* `insertUnique_thrown`, `emplaceUnique_thrown`: what is left when the allocation throws;
* `FailingHistory.holds`, `thrown_unharmed`: every history;
* `lone_leaf_left`: an allocation that fails after the tree has been restructured.
-/

import CppArt.Model.Failure
import CppArt.Proof.Refinement
import CppArt.Proof.PrefixShape

namespace CppArt

open Table

variable {H K V : Type} {n : ℕ} {α β : Type}

@[simp] theorem St.arm_mem_get (s : St H K V n) (a x : Addr) : (s.arm a).mem.get x = s.mem.get x := rfl

@[simp] theorem St.arm_tree (s : St H K V n) (a : Addr) : (s.arm a).tree = s.tree := rfl

/-! ### Computations that do not write before they allocate -/

/-- **A computation does not write before its first allocation**: if that one is to fail, it throws and
nothing has changed, or no allocation is made and the result is that of a computation that only reads. -/
def Cautious (p : Run H K V n α) : Prop := ∀ s : St H K V n, s.mem.failAt = none →
  p (s.arm s.mem.next) = .error .badAlloc s ∨
  ∃ r : Except Fault α, p s = Exec.lift r s ∧ p (s.arm s.mem.next) = Exec.lift r (s.arm s.mem.next)

/-- **A computation does not return before it has allocated** anything, nor writes before. -/
def Pending (p : Run H K V n α) : Prop := ∀ s : St H K V n, s.mem.failAt = none →
  p (s.arm s.mem.next) = .error .badAlloc s ∨
  ∃ fault, p s = .error fault s ∧ p (s.arm s.mem.next) = .error fault (s.arm s.mem.next)

theorem Pending.cautious {p : Run H K V n α} (pending : Pending p) : Cautious p := by
  intro s calm
  rcases pending s calm with thrown | ⟨fault, stopped, stopped'⟩
  · exact .inl thrown
  · exact .inr ⟨.error fault, stopped, stopped'⟩

theorem Pending.bind {p : Run H K V n α} (pending : Pending p) (q : α → Run H K V n β) :
    Pending (p >>= q) := by
  intro s calm
  rcases pending s calm with thrown | ⟨fault, stopped, stopped'⟩
  · exact .inl (Exec.bind_of_error thrown q)
  · exact .inr ⟨fault, Exec.bind_of_error stopped q, Exec.bind_of_error stopped' q⟩

theorem Cautious.bind {p : Run H K V n α} {q : α → Run H K V n β} (first : Cautious p)
    (rest : ∀ x, Cautious (q x)) : Cautious (p >>= q) := by
  intro s calm
  rcases first s calm with thrown | ⟨r, result, result'⟩
  · exact .inl (Exec.bind_of_error thrown q)
  · cases r with
    | error fault =>
        exact .inr ⟨.error fault, Exec.bind_of_error result q, Exec.bind_of_error result' q⟩
    | ok x =>
        rw [Exec.bind_of_ok result, Exec.bind_of_ok result']
        exact rest x s calm

theorem Cautious.bind_pending {p : Run H K V n α} {q : α → Run H K V n β} (first : Cautious p)
    (rest : ∀ x, Pending (q x)) : Pending (p >>= q) := by
  intro s calm
  rcases first s calm with thrown | ⟨r, result, result'⟩
  · exact .inl (Exec.bind_of_error thrown q)
  · cases r with
    | error fault => exact .inr ⟨fault, Exec.bind_of_error result q, Exec.bind_of_error result' q⟩
    | ok x =>
        rw [Exec.bind_of_ok result, Exec.bind_of_ok result']
        exact rest x s calm

theorem cautious_pure (x : α) : Cautious (pure x : Run H K V n α) := fun _ _ => .inr ⟨.ok x, rfl, rfl⟩

theorem cautious_lift (r : Except Fault α) : Cautious (Exec.lift r : Run H K V n α) :=
  fun _ _ => .inr ⟨r, rfl, rfl⟩

theorem pending_throw (fault : Fault) : Pending (throw fault : Run H K V n α) :=
  fun _ _ => .inr ⟨fault, rfl, rfl⟩

theorem cautious_throw (fault : Fault) : Cautious (throw fault : Run H K V n α) :=
  (pending_throw fault).cautious

theorem pending_new (cell : Cell H V) : Pending (new cell : Run H K V n Addr) := by
  intro s calm
  have armed : (s.arm s.mem.next).mem.failAt = some (s.arm s.mem.next).mem.next := rfl
  have restored : (s.arm s.mem.next).mem.disarm = s.mem := Memory.ext rfl rfl calm.symm
  left
  unfold new
  rw [if_pos armed, restored]
  rfl

theorem cautious_this : Cautious (this : Run H K V n (Tree K n)) := fun s _ => .inr ⟨.ok s.tree, rfl, rfl⟩

theorem cautious_load (a : Addr) : Cautious (load a : Run H K V n (Cell H V)) := by
  intro s calm
  right
  rcases cell : s.mem.get a with _ | c
  · refine ⟨.error .dangling, ?_, ?_⟩
    · simp only [load, cell, Exec.lift_error]
    · simp only [load, St.arm_mem_get, cell, Exec.lift_error]
  · exact ⟨.ok c, load_ok cell, load_ok (s := s.arm s.mem.next) cell⟩

/-- A member function that looks at a node and goes on by its dynamic type. -/
theorem cautious_onCell {f : Cell H V → Run H K V n α} (a : Addr) (cases : ∀ cell, Cautious (f cell)) :
    Cautious (load a >>= f) :=
  (cautious_load a).bind cases

/-! ### The functions that only read -/

theorem cautious_parentOf (a : Addr) : Cautious (parentOf a : Run H K V n (Option Addr)) :=
  cautious_onCell a fun cell => cautious_pure cell.parent

theorem cautious_leafValue (a : Addr) : Cautious (leafValue a : Run H K V n V) :=
  cautious_onCell a fun cell => by
    rcases cell with ⟨p, body⟩
    cases body with
    | leaf v => exact cautious_pure v
    | baseLeaf | dummy _ _ | inner _ _ => exact cautious_throw _

theorem cautious_headerOf (a : Addr) : Cautious (headerOf a : Run H K V n H) :=
  cautious_onCell a fun cell => by
    rcases cell with ⟨p, body⟩
    cases body with
    | inner h l => exact cautious_pure h
    | baseLeaf | dummy _ _ | leaf _ => exact cautious_throw _

theorem cautious_isLeaf (a : Addr) : Cautious (isLeaf a : Run H K V n Bool) :=
  cautious_onCell a fun cell => by
    rcases cell with ⟨p, body⟩
    cases body <;> exact cautious_pure _

theorem cautious_getType (a : Addr) : Cautious (getType a : Run H K V n NodeType) :=
  cautious_onCell a fun cell => by
    rcases cell with ⟨p, body⟩
    cases body <;> exact cautious_pure _

theorem cautious_sizeOf (a : Addr) : Cautious (sizeOf a : Run H K V n ℕ) :=
  cautious_onCell a fun cell => by
    rcases cell with ⟨p, body⟩
    cases body <;> exact cautious_pure _

theorem cautious_maxSizeOf (a : Addr) : Cautious (maxSizeOf a : Run H K V n ℕ) :=
  cautious_onCell a fun cell => by
    rcases cell with ⟨p, body⟩
    cases body <;> exact cautious_pure _

theorem cautious_findChild (a : Addr) (b : Byte) : Cautious (findChild a b : Run H K V n (Option Addr)) :=
  cautious_onCell a fun cell => by
    rcases cell with ⟨p, body⟩
    cases body with
    | inner h l => exact cautious_lift _
    | baseLeaf | dummy _ _ | leaf _ => exact cautious_pure _

theorem cautious_chunkAt (key : Key n) (i : ℤ) : Cautious (chunkAt key i : Run H K V n Byte) := by
  unfold chunkAt
  split_ifs
  · exact cautious_pure _
  · exact cautious_throw _

theorem cautious_extremeFrom (dir : Dir) : ∀ (calls : ℕ) (a : Addr),
    Cautious (extremeFrom dir calls a : Run H K V n Addr)
  | 0, _ => cautious_throw _
  | calls + 1, a => cautious_onCell a fun cell => by
      rcases cell with ⟨p, body⟩
      cases body with
      | inner h l => exact (cautious_lift _).bind fun child => cautious_extremeFrom dir calls child
      | baseLeaf | dummy _ _ | leaf _ => exact cautious_pure _

/-! ### The functions that allocate first -/

theorem pending_newOneWay (child : Addr) (b : Byte) (h : H) :
    Pending (newOneWay child b h : Run H K V n Addr) :=
  (cautious_parentOf child).bind_pending fun _ => (pending_new _).bind _

theorem pending_grow (a : Addr) : Pending (grow a : Run H K V n Addr) :=
  (cautious_load a).bind_pending fun cell => by
    rcases cell with ⟨p, body⟩
    cases body with
    | inner h l => exact (cautious_lift _).bind_pending fun _ => (pending_new _).bind _
    | baseLeaf | dummy _ _ | leaf _ => exact pending_throw _

theorem cautious_makeRoom [Variant H] (a : Addr) (key : Key n) :
    Cautious (makeRoom a key : Run H K V n Addr) := by
  refine (cautious_sizeOf a).bind fun size => ?_
  refine (cautious_maxSizeOf a).bind fun maxSize => ?_
  split_ifs
  · exact ((pending_grow a).bind _).cautious
  · exact cautious_pure a

/-- **The variants do not write before they allocate.** -/
class CautiousVariant (H : Type) [Variant H] : Prop where
  enter {K V : Type} {n : ℕ} (tr : Traits K V n) (a : Addr) (key : Key n) (depth : ℕ) :
    Cautious (Variant.enter tr a key depth : Run H K V n (Addr × ℕ))
  splitLeaf {K V : Type} {n : ℕ} (limit : ℕ) (leaf : Addr) (existingKey key : Key n) (depth : ℕ) :
    Cautious (Variant.splitLeaf limit leaf existingKey key depth : Run H K V n (Addr × ℕ))

section Insertion

variable [Variant H] [CautiousVariant H] {tr : Traits K V n}

/-- **The descent of an insertion** does not write before it allocates. -/
theorem insertLoop_cautious {limit : ℕ} {key : Key n} {duplicate : Addr → Run H K V n α}
    {place : Addr → ℤ → Run H K V n α} (found : ∀ it, Cautious (duplicate it))
    (opened : ∀ q i, Cautious (place q i)) : ∀ (steps depth : ℕ) (current : Option Addr) (previous : Addr),
    Cautious (insertLoop tr limit key duplicate place steps depth current previous)
  | 0, _, _, _ => cautious_throw _
  | steps + 1, depth, none, previous => by
      rw [insertLoop]
      split_ifs
      · refine (cautious_makeRoom previous key).bind fun q => ?_
        exact opened q _
      · exact cautious_throw _
  | steps + 1, depth, some a, previous => by
      rw [insertLoop]
      split_ifs
      · refine (cautious_isLeaf a).bind fun leaf => ?_
        split_ifs
        · refine (cautious_leafValue a).bind fun v => ?_
          refine cautious_this.bind fun tree => ?_
          dsimp only
          split_ifs
          · exact found a
          · refine (CautiousVariant.splitLeaf limit a _ key depth).bind fun answer => ?_
            exact opened _ _
        · refine (CautiousVariant.enter tr a key depth).bind fun answer => ?_
          refine (cautious_chunkAt key _).bind fun b => ?_
          refine (cautious_findChild _ b).bind fun child => ?_
          exact insertLoop_cautious found opened steps _ child _
      · exact cautious_throw _

theorem insertUnique_cautious (tr : Traits K V n) (x : V) : Cautious (insertUnique tr x : Run H K V n (Addr × Bool)) := by
  refine cautious_this.bind fun tree => ?_
  dsimp only
  cases tree.root with
  | none => exact ((pending_new _).bind _).cautious
  | some r =>
      exact insertLoop_cautious (fun it => cautious_pure _) (fun q i => ((pending_new _).bind _).cautious)
        _ _ _ _

theorem getInsertUniquePos_cautious (tr : Traits K V n) (key : Key n) :
    Cautious (getInsertUniquePos tr key : Run H K V n Addr) := by
  refine cautious_this.bind fun tree => ?_
  cases tree.root with
  | none => exact cautious_pure _
  | some r => exact insertLoop_cautious cautious_pure (fun q i => cautious_pure q) _ _ _ _

end Insertion

/-! ### The two variants -/

instance : CautiousVariant DepthHeader where
  enter _ _ _ _ := cautious_pure _
  splitLeaf _ leaf _ _ _ :=
    (cautious_chunkAt _ _).bind fun b => ((pending_newOneWay leaf b _).bind _).cautious

namespace ArPrefixTree

theorem cautious_mismatchFrom {byteAt : ℕ → Run PrefixHeader K V n Byte} (key : Key n) (depth : ℕ)
    (reads : ∀ i, Cautious (byteAt i)) : ∀ count pos, Cautious (mismatchFrom key depth byteAt count pos)
  | 0, _ => cautious_pure _
  | count + 1, pos => by
      refine (cautious_chunkAt key _).bind fun b => ?_
      refine (reads pos).bind fun b' => ?_
      split_ifs
      · exact cautious_pure _
      · exact cautious_mismatchFrom key depth reads count (pos + 1)

theorem cautious_storedAt (h : PrefixHeader) (i : ℕ) :
    Cautious (storedAt h i : Run PrefixHeader K V n Byte) := by
  unfold storedAt
  split
  · exact cautious_pure _
  · exact cautious_throw _

theorem cautious_minKey (tr : Traits K V n) (a : Addr) :
    Cautious (minKey tr a : Run PrefixHeader K V n (Key n)) := by
  refine (cautious_extremeFrom .up _ a).bind fun leaf => ?_
  refine (cautious_leafValue leaf).bind fun _ => ?_
  exact cautious_pure _

theorem cautious_prefixMismatchPos (tr : Traits K V n) (a : Addr) (key : Key n) :
    Cautious (prefixMismatchPos tr a key : Run PrefixHeader K V n ℕ) := by
  refine (cautious_headerOf a).bind fun h => ?_
  refine (cautious_mismatchFrom key h.depth (cautious_storedAt h) _ _).bind fun first => ?_
  cases first with
  | some pos => exact cautious_pure pos
  | none =>
      dsimp only
      split_ifs
      · refine (cautious_minKey tr a).bind fun least => ?_
        refine (cautious_mismatchFrom key h.depth (fun i => cautious_chunkAt least _) _ _).bind
          fun second => ?_
        cases second with
        | some pos => exact cautious_pure pos
        | none => exact cautious_pure _
      · exact cautious_pure _

theorem pending_splitPrefixIntoParent (tr : Traits K V n) (a : Addr) (pos : ℕ) :
    Pending (splitPrefixIntoParent tr a pos : Run PrefixHeader K V n Addr) := by
  refine (cautious_headerOf a).bind_pending fun h => ?_
  split_ifs
  · refine (cautious_storedAt h pos).bind_pending fun b => ?_
    exact (pending_newOneWay a b _).bind _
  · refine (cautious_minKey tr a).bind_pending fun least => ?_
    refine (cautious_chunkAt least _).bind_pending fun b => ?_
    exact (pending_newOneWay a b _).bind _

theorem cautious_enter (tr : Traits K V n) (a : Addr) (key : Key n) (depth : ℕ) :
    Cautious (enter tr a key depth : Run PrefixHeader K V n (Addr × ℕ)) := by
  refine (cautious_prefixMismatchPos tr a key).bind fun pos => ?_
  refine (cautious_headerOf a).bind fun h => ?_
  split_ifs
  · exact ((pending_splitPrefixIntoParent tr a pos).bind _).cautious
  · exact cautious_pure _

theorem cautious_tiebreak (leaf : Addr) (existingKey key : Key n) (depth : ℕ) : ∀ steps j,
    Cautious (tiebreak leaf existingKey key depth steps j : Run PrefixHeader K V n (Addr × ℕ))
  | 0, _ => cautious_throw _
  | steps + 1, j => by
      refine (cautious_chunkAt key _).bind fun b => ?_
      refine (cautious_chunkAt existingKey _).bind fun b' => ?_
      split_ifs
      · exact ((pending_newOneWay leaf b' _).bind _).cautious
      · exact cautious_tiebreak leaf existingKey key depth steps (j + 1)

end ArPrefixTree

instance : CautiousVariant PrefixHeader where
  enter := ArPrefixTree.cautious_enter
  splitLeaf _ leaf existingKey key depth := ArPrefixTree.cautious_tiebreak leaf existingKey key depth _ _

/-! ### Computations that do not allocate -/

/-- The result of a computation, in a memory in which an allocation is set to fail. -/
def armed (a : Addr) : EStateM.Result Fault (St H K V n) α → EStateM.Result Fault (St H K V n) α
  | .ok x s => .ok x (s.arm a)
  | .error fault s => .error fault (s.arm a)

/-- **A computation does not allocate**: it runs the same whichever allocation is set to fail. -/
def Blind (p : Run H K V n α) : Prop := ∀ (s : St H K V n) a, p (s.arm a) = armed a (p s)

theorem Blind.bind {p : Run H K V n α} {q : α → Run H K V n β} (first : Blind p)
    (rest : ∀ x, Blind (q x)) : Blind (p >>= q) := by
  intro s a
  rcases run : p s with ⟨x, t⟩ | ⟨fault, t⟩
  · have run' : p (s.arm a) = .ok x (t.arm a) := (first s a).trans (congrArg (armed a) run)
    rw [Exec.bind_of_ok run, Exec.bind_of_ok run']
    exact rest x t a
  · have run' : p (s.arm a) = .error fault (t.arm a) := (first s a).trans (congrArg (armed a) run)
    rw [Exec.bind_of_error run, Exec.bind_of_error run']
    rfl

theorem blind_pure (x : α) : Blind (pure x : Run H K V n α) := fun _ _ => rfl

theorem blind_throw (fault : Fault) : Blind (throw fault : Run H K V n α) := fun _ _ => rfl

theorem blind_lift (r : Except Fault α) : Blind (Exec.lift r : Run H K V n α) := by
  intro s a
  cases r <;> rfl

theorem blind_load (a : Addr) : Blind (load a : Run H K V n (Cell H V)) := by
  intro s b
  rcases cell : s.mem.get a with _ | c
  · simp only [load, St.arm_mem_get, cell, armed]
  · rw [load_ok cell, load_ok (s := s.arm b) cell]
    rfl

theorem blind_store (a : Addr) (cell : Cell H V) : Blind (store a cell : Run H K V n Unit) :=
  fun _ _ => rfl

theorem blind_delete (a : Addr) : Blind (delete a : Run H K V n Unit) := by
  refine (blind_load a).bind fun _ _ _ => ?_
  rfl

theorem blind_setParent (a : Addr) (parent : Option Addr) :
    Blind (setParent a parent : Run H K V n Unit) := by
  refine (blind_load a).bind fun _ => ?_
  exact blind_store a _

theorem blind_getType (a : Addr) : Blind (getType a : Run H K V n NodeType) := by
  refine (blind_load a).bind fun cell => ?_
  rcases cell with ⟨p, body⟩
  cases body <;> exact blind_pure _

theorem blind_headerOf (a : Addr) : Blind (headerOf a : Run H K V n H) := by
  refine (blind_load a).bind fun cell => ?_
  rcases cell with ⟨p, body⟩
  cases body with
  | inner h l => exact blind_pure h
  | baseLeaf | dummy _ _ | leaf _ => exact blind_throw _

theorem blind_chunkAt (key : Key n) (i : ℤ) : Blind (chunkAt key i : Run H K V n Byte) := by
  unfold chunkAt
  split_ifs
  · exact blind_pure _
  · exact blind_throw _

theorem blind_insertChild (a : Addr) (b : Byte) (c : Addr) :
    Blind (insertChild a b c : Run H K V n Unit) := by
  refine (blind_load a).bind fun cell => ?_
  rcases cell with ⟨p, body⟩
  cases body with
  | inner h l => exact (blind_lift _).bind fun _ => blind_store a _
  | baseLeaf | dummy _ _ | leaf _ => exact blind_pure _

theorem blind_replaceRoot (a : Addr) : Blind (replaceRoot a : Run H K V n Unit) := by
  refine Blind.bind (fun _ _ => rfl) fun _ => ?_
  refine Blind.bind (fun _ _ => rfl) fun tree => (blind_load _).bind fun cell => ?_
  rcases cell with ⟨p, body⟩
  cases body with
  | dummy root e => exact blind_store _ _
  | baseLeaf | inner _ _ | leaf _ => exact blind_throw _

theorem blind_insertLeaf [Variant H] (q leaf : Addr) (key : Key n) :
    Blind (insertLeaf q leaf key : Run H K V n Addr) := by
  have finish : Blind (do updateCount (· + 1); pure leaf : Run H K V n Addr) :=
    Blind.bind (fun _ _ => rfl) fun _ => blind_pure leaf
  refine (blind_setParent leaf _).bind fun _ => ?_
  refine (blind_getType q).bind fun type => ?_
  split_ifs
  · refine (blind_headerOf q).bind fun h => ?_
    refine (blind_chunkAt key _).bind fun b => ?_
    refine (blind_insertChild q b leaf).bind fun _ => ?_
    exact finish
  · refine (blind_replaceRoot leaf).bind fun _ => ?_
    exact finish

/-! ### The call that throws -/

section Thrown

variable [Variant H] [HeaderSpec H] [LawfulVariant H] [CautiousVariant H] {tr : Traits K V n}
  {s : St H K V n} {e : Addr} {M : Contents n V} {own : Set Addr}

/-- **`insert_unique` whose first allocation fails** throws and has changed nothing, or finds the key. -/
theorem insertUnique_thrown (admits : Admits H n) (holds : Holds tr s e M own) (x : V) :
    insertUnique tr x (s.arm s.mem.next) = .error .badAlloc s ∨
      ∃ it v, M (tr.keyOf x) = some (it, v) ∧
        insertUnique tr x (s.arm s.mem.next) = .ok (it, false) (s.arm s.mem.next) := by
  rcases insertUnique_cautious tr x s holds.calm with thrown | ⟨r, result, result'⟩
  · exact .inl thrown
  · right
    rcases insertUnique_spec admits holds x with ⟨it, v, entry, run⟩ | ⟨absent, it, s', own', run, holds', -⟩
    · rw [run] at result
      cases r with
      | error fault => cases result
      | ok answer =>
          cases result
          exact ⟨it, v, entry, result'⟩
    · -- a new element is counted, so the state cannot be the one before
      rw [run] at result
      cases r with
      | error fault => cases result
      | ok answer =>
          cases result
          have before := holds.count
          have after := holds'.count
          rw [size_put_of_eq_none absent] at after
          omega

/-- **`emplace_unique` whose second allocation fails** throws and leaves every object as it was, or
returns as if none failed. -/
theorem emplaceUnique_thrown (admits : Admits H n) (holds : Holds tr s e M own) (x : V) :
    (∃ s', emplaceUnique tr x (s.arm (s.mem.next + 1)) = .error .badAlloc s' ∧ s'.tree = s.tree ∧
      (∀ a, s'.mem.get a = s.mem.get a) ∧ s'.mem.failAt = none) ∨
    ∃ answer s', emplaceUnique tr x s = .ok answer s' ∧
      emplaceUnique tr x (s.arm (s.mem.next + 1)) = .ok answer (s'.arm (s.mem.next + 1)) := by
  let leaf := s.mem.next
  let s₁ := s.withMem (s.mem.alloc ⟨none, .leaf x⟩)
  let key := s.tree.keyTransform (tr.keyOfValue x)
  let rest : Addr → Run H K V n (Addr × Bool) := fun node => do
    if (← getType node) ≠ .leaf then do
      let it ← insertLeaf node leaf key
      pure (it, true)
    else do
      delete leaf
      pure (node, false)
  have cell : s₁.mem.get leaf = some ⟨none, .leaf x⟩ := Memory.alloc_get_next _ _
  -- both runs allocate the leaf and come to the descent
  have descends : ∀ {t t₁ : St H K V n}, new ⟨none, .leaf x⟩ t = .ok leaf t₁ → t₁.tree = s.tree →
      t₁.mem.get leaf = some ⟨none, .leaf x⟩ →
      emplaceUnique tr x t = onThrow (getInsertUniquePos tr key >>= rest) (delete leaf) t₁ := by
    intro t t₁ first tree here
    have body : (do
        let tree ← this
        let value ← leafValue leaf
        let key := tree.keyTransform (tr.keyOfValue value)
        let node ← getInsertUniquePos tr key
        if (← getType node) ≠ .leaf then do
          let it ← insertLeaf node leaf key
          pure (it, true)
        else do
          delete leaf
          pure (node, false) : Run H K V n (Addr × Bool)) t₁ = (getInsertUniquePos tr key >>= rest) t₁ := by
      rw [Exec.bind_of_ok (this_apply t₁), Exec.bind_of_ok (leafValue_ok here), tree]
    unfold emplaceUnique
    rw [Exec.bind_of_ok (onThrow_ok first)]
    simp only [onThrow, body]
  have unlucky : (s.arm (s.mem.next + 1)).mem.failAt ≠ some (s.arm (s.mem.next + 1)).mem.next :=
    fun same => Nat.succ_ne_self _ (Option.some.inj same)
  have calmRun := descends (new_ok ⟨none, .leaf x⟩ holds.calm) rfl cell
  have armedRun : emplaceUnique tr x (s.arm (s.mem.next + 1))
      = onThrow (getInsertUniquePos tr key >>= rest) (delete leaf) (s₁.arm s₁.mem.next) :=
    descends (new_granted ⟨none, .leaf x⟩ unlucky) rfl cell
  obtain ⟨answer, s', returned⟩ : ∃ answer s', emplaceUnique tr x s = .ok answer s' := by
    rcases emplaceUnique_spec admits holds x with ⟨it, v, s', -, run, -⟩ | ⟨-, it, s', own', run, -⟩
    · exact ⟨_, _, run⟩
    · exact ⟨_, _, run⟩
  have position := onThrow_eq_ok (calmRun.symm.trans returned)
  rcases getInsertUniquePos_cautious tr key s₁ holds.calm with thrown | ⟨r, result, result'⟩
  · refine .inl ⟨s₁.withMem (s₁.mem.free leaf), ?_, rfl, fun a => ?_, holds.calm⟩
    · rw [armedRun]
      simp only [onThrow, Exec.bind_of_error thrown rest]
      exact Exec.bind_of_ok (delete_ok cell) _
    · by_cases same : a = leaf
      · rw [same]
        exact (Memory.free_get_self _ _).trans (Memory.get_next s.mem).symm
      · exact (Memory.free_get_of_ne _ same).trans (Memory.alloc_get_of_ne _ _ same)
  · cases r with
    | error fault =>
        rw [Exec.bind_of_error result rest] at position
        cases position
    | ok node =>
        have blind : Blind (rest node) := by
          refine (blind_getType node).bind fun type => ?_
          split_ifs
          · refine (blind_insertLeaf node leaf key).bind fun _ => ?_
            exact blind_pure _
          · refine (blind_delete leaf).bind fun _ => ?_
            exact blind_pure _
        rw [Exec.bind_of_ok result] at position
        have finish : (getInsertUniquePos tr key >>= rest) (s₁.arm s₁.mem.next)
            = .ok answer (s'.arm s₁.mem.next) :=
          (Exec.bind_of_ok result' rest).trans
            ((blind s₁ s₁.mem.next).trans (congrArg (armed s₁.mem.next) position))
        exact .inr ⟨answer, s', returned, armedRun.trans (onThrow_ok finish)⟩

end Thrown

/-! ### Every history -/

section Histories

variable [Variant H] [HeaderSpec H] [LawfulVariant H] [CautiousVariant H] {tr : Traits K V n}
  {s : St H K V n} {m : Table Byte n V}

omit [HeaderSpec H] [LawfulVariant H] [CautiousVariant H] in
/-- A history in which no call throws. -/
theorem History.failing (history : History tr s m) : FailingHistory tr s m := by
  induction history with
  | start calm run => exact .start calm run
  | call history effect run ih => exact .call ih effect run

/-- **A container represents the reference map** after every history of calls some of which throw. -/
theorem FailingHistory.holds (admits : Admits H n) (history : FailingHistory tr s m) :
    ∃ e M own, Holds tr s e M own ∧ values M = m := by
  induction history with
  | start calm run =>
      obtain ⟨e, M, own, holds, same⟩ := (History.start calm run).holds admits
      exact ⟨e, M, own, holds, same⟩
  | @call s s' m m' call answer history effect run ih =>
      obtain ⟨e, M, own, holds, rfl⟩ := ih
      obtain ⟨answer', t, M', own', run', holds', -, values', -⟩ := perform_spec admits holds effect
      cases run.symm.trans run'
      exact ⟨e, M', own', holds', values'⟩
  | @thrown s s' m call k history spared run ih =>
      obtain ⟨e, M, own, holds, rfl⟩ := ih
      cases spared with
      | insert x =>
          rcases insertUnique_thrown admits holds x with thrown | ⟨it, v, -, found⟩
          · cases run.symm.trans (Exec.bind_of_error thrown _)
            exact ⟨e, M, own, holds, rfl⟩
          · cases run.symm.trans (Exec.bind_of_ok found _)
      | emplace x =>
          rcases emplaceUnique_thrown admits holds x with ⟨t, thrown, tree, same, calm⟩ | ⟨answer, t, -, found⟩
          · cases run.symm.trans (Exec.bind_of_error thrown _)
            have restored : s.withMem s'.mem = s' := by
              rw [St.withMem, ← tree]
            have holds' : Holds tr (s.withMem s'.mem) e M own :=
              holds.frame (fun a _ => same a) (calm.trans holds.calm.symm)
            exact ⟨e, M, own, restored ▸ holds', rfl⟩
          · cases run.symm.trans (Exec.bind_of_ok found _)

/-- **A failed insertion does no harm**: the container answers as the reference map does, and a further
insertion whose allocation before any restructuring fails throws without effect or does what it does
otherwise. -/
structure Unharmed (tr : Traits K V n) (s : St H K V n) (m : Table Byte n V) : Prop where
  refines : Refines tr s m
  insert : ∀ x, insertUnique tr x (s.arm s.mem.next) = .error .badAlloc s ∨
    ∃ it v, Stored s it v ∧ tr.keyOf v = tr.keyOf x ∧
      insertUnique tr x (s.arm s.mem.next) = .ok (it, false) (s.arm s.mem.next)
  emplace : ∀ x, (∃ s', emplaceUnique tr x (s.arm (s.mem.next + 1)) = .error .badAlloc s' ∧
      s'.tree = s.tree ∧ (∀ a, s'.mem.get a = s.mem.get a) ∧ s'.mem.failAt = none) ∨
    ∃ answer s', emplaceUnique tr x s = .ok answer s' ∧
      emplaceUnique tr x (s.arm (s.mem.next + 1)) = .ok answer (s'.arm (s.mem.next + 1))

theorem Holds.unharmed {e : Addr} {M : Contents n V} {own : Set Addr} (admits : Admits H n)
    (holds : Holds tr s e M own) : Unharmed tr s (values M) where
  refines := holds.refines admits
  insert x := by
    rcases insertUnique_thrown admits holds x with thrown | ⟨it, v, entry, found⟩
    · exact .inl thrown
    · obtain ⟨stored, key⟩ := holds.stored_of_entry entry
      exact .inr ⟨it, v, stored, key, found⟩
  emplace x := emplaceUnique_thrown admits holds x

end Histories

/-- Two children or more in an `ar_prefix_tree`. -/
theorem ArPrefixTree.branching_of_holds {tr : Traits K V n} {s : ArPrefixTree.State K V n} {e : Addr}
    {M : Contents n V} {own : Set Addr} (holds : Holds tr s e M own) : Branching s :=
  fun a h l inner => ((compressed_of_holds holds).two a h l inner).1

/-- A node of an `ar_tree` with one child lies above two keys, so its child is no leaf. -/
theorem ArTree.noLoneLeaf_of_holds {tr : Traits K V n} {s : ArTree.State K V n} {e : Addr}
    {M : Contents n V} {own : Set Addr} (holds : Holds tr s e M own) : NoLoneLeaf s := by
  intro a h l b c q v inner one slot leaf
  obtain ⟨reached, q', cell⟩ := inner
  obtain ⟨p, d, m, own', rep, -⟩ := holds.at_reached reached
  obtain ⟨sub, parts, -, -⟩ := rep.parts cell
  have child : l.child b = some c := (Layout.find_eq_some parts.wf).mp slot
  obtain ⟨u, inU, w, inW, differ⟩ : (dom m).Nontrivial := parts.broad
  have below : ∀ x ∈ dom m, x ∈ dom (fiber m (branch h) b) := fun x inside => by
    have used : l.child (x.letter (branch h)) ≠ none := parts.child_ne_none.mpr ⟨x, inside, rfl⟩
    exact mem_dom_fiber.mpr
      ⟨Layout.eq_of_count_one parts.wf one used (Layout.mem_bytes_of_child child), inside⟩
  rcases (parts.kid b c child).inspect with ⟨v', cell', table, -⟩ | ⟨h', l', cell', -⟩
  · rw [table, dom_single] at below
    exact differ ((below u inU).trans (below w inW).symm)
  · cases leaf.symm.trans cell'

/-- **A container survives insertions that throw**, as long as the allocation that fails is the first one
of `insert_unique` or the second one of `emplace_unique`. -/
theorem thrown_unharmed {K V : Type} {n : ℕ} (tr : Traits K V n) :
    (∀ (s : ArTree.State K V n) (m : Table Byte n V), FailingHistory tr s m →
      Unharmed tr s m ∧ NoLoneLeaf s) ∧
    ∀ (s : ArPrefixTree.State K V n) (m : Table Byte n V), n ≤ 65536 → FailingHistory tr s m →
      Unharmed tr s m ∧ Branching s := by
  refine ⟨fun s m history => ?_, fun s m fits history => ?_⟩
  · obtain ⟨e, M, own, holds, rfl⟩ := history.holds trivial
    exact ⟨holds.unharmed trivial, ArTree.noLoneLeaf_of_holds holds⟩
  · obtain ⟨e, M, own, holds, rfl⟩ := history.holds fits
    exact ⟨holds.unharmed fits, ArPrefixTree.branching_of_holds holds⟩

/-- A key in either container, and a second one whose first allocation fails. -/
theorem thrown_unharmed_second :
    (∃ (s : ArTree.State (Key 2) (Key 2) 2) (m : Table Byte 2 (Key 2)),
      perform (Traits.identity 2) (.insert ⟨#v[1, 3]⟩) (s.arm s.mem.next) = .error .badAlloc s ∧
      Unharmed (Traits.identity 2) s m ∧ NoLoneLeaf s) ∧
    ∃ (s : ArPrefixTree.State (Key 2) (Key 2) 2) (m : Table Byte 2 (Key 2)),
      perform (Traits.identity 2) (.insert ⟨#v[1, 3]⟩) (s.arm s.mem.next) = .error .badAlloc s ∧
      Unharmed (Traits.identity 2) s m ∧ Branching s := by
  have fits : 2 ≤ 65536 := by decide
  obtain ⟨s, run, history⟩ := insertAll_history (H := DepthHeader) trivial (Traits.identity 2)
    [⟨#v[1, 2]⟩]
  obtain ⟨s', run', history'⟩ := insertAll_history (H := PrefixHeader) fits (Traits.identity 2)
    [⟨#v[1, 2]⟩]
  obtain ⟨t, found, thrown⟩ : ∃ t : ArTree.State (Key 2) (Key 2) 2,
      insertAll (Traits.identity 2) [⟨#v[1, 2]⟩] (blankState DepthHeader (Traits.identity 2)) = .ok ⟨⟩ t ∧
      perform (Traits.identity 2) (.insert ⟨#v[1, 3]⟩) (t.arm t.mem.next) = .error .badAlloc t :=
    ⟨_, rfl, rfl⟩
  obtain ⟨t', found', thrown'⟩ : ∃ t : ArPrefixTree.State (Key 2) (Key 2) 2,
      insertAll (Traits.identity 2) [⟨#v[1, 2]⟩] (blankState PrefixHeader (Traits.identity 2)) = .ok ⟨⟩ t ∧
      perform (Traits.identity 2) (.insert ⟨#v[1, 3]⟩) (t.arm t.mem.next) = .error .badAlloc t :=
    ⟨_, rfl, rfl⟩
  cases run.symm.trans found
  cases run'.symm.trans found'
  exact ⟨⟨s, _, thrown, (thrown_unharmed _).1 s _ (.thrown history.failing (.insert _) thrown)⟩,
    s', _, thrown', (thrown_unharmed _).2 s' _ fits (.thrown history'.failing (.insert _) thrown')⟩

/-- **The leaf of a second key cannot be allocated**: the two nodes made for it stay, and the lower one has
the leaf of the first key as its only child. -/
theorem lone_leaf_left : ∃ (s s' : ArTree.State (Key 2) (Key 2) 2) (m : Table Byte 2 (Key 2)),
    History (Traits.identity 2) s m ∧
    insertUnique (Traits.identity 2) ⟨#v[1, 3]⟩ (s.arm (s.mem.next + 2)) = .error .badAlloc s' ∧
    ¬ NoLoneLeaf s' := by
  obtain ⟨s, run, history⟩ := insertAll_history (H := DepthHeader) trivial (Traits.identity 2)
    [⟨#v[1, 2]⟩]
  obtain ⟨s₀, run₀, s', thrown, root, above, below, leaf⟩ : ∃ s₀ : ArTree.State (Key 2) (Key 2) 2,
      insertAll (Traits.identity 2) [⟨#v[1, 2]⟩] (blankState DepthHeader (Traits.identity 2)) = .ok ⟨⟩ s₀ ∧
      ∃ s', insertUnique (Traits.identity 2) ⟨#v[1, 3]⟩ (s₀.arm (s₀.mem.next + 2)) = .error .badAlloc s' ∧
        s'.tree.root = some 3 ∧ s'.mem.get 3 = some ⟨some 0, .inner ⟨0⟩ (.oneWay 1 4)⟩ ∧
        s'.mem.get 4 = some ⟨some 3, .inner ⟨1⟩ (.oneWay 2 2)⟩ ∧
        s'.mem.get 2 = some ⟨some 4, .leaf ⟨#v[1, 2]⟩⟩ :=
    ⟨_, rfl, _, rfl, rfl, rfl, rfl, rfl⟩
  cases run.symm.trans run₀
  refine ⟨s, s', _, history, thrown, fun sound => ?_⟩
  have inner : IsInner s' 4 ⟨1⟩ (.oneWay 2 2) :=
    ⟨⟨3, root, .child (b := 1) above rfl (.refl 4)⟩, some 3, below⟩
  exact sound 4 _ _ 2 2 _ _ inner rfl rfl leaf

end CppArt
