/-
**The member functions do not depend on the addresses of the nodes.**

* `Follows`: a computation does among foreign cells what it does without them, with every address moved;
* `follows_insertLoop` and the lemmas after it: the member functions that both classes share;
* `RelocatableVariant`: what the classes do differently.
-/

import CppArt.Proof.Renaming

namespace CppArt

variable {H K V : Type} {n : ℕ}

/-! ### Computations in the two memories -/

/-- **The computation `q` does among foreign cells what `p` does without them.** -/
abbrev Follows {α β : Type} (ρ : Shift) (foreign : Addr → Option (Cell H V)) (f : α → β)
    (p : Run H K V n α) (q : Run H K V n β) : Prop :=
  Exec.Tracks (fun s => s.mem.next) ρ.span (St.spread ρ foreign) f p q

section Follows

variable {α β : Type} {ρ : Shift} {foreign : Addr → Option (Cell H V)}

theorem follows_load (a : Addr) :
    Follows ρ foreign (Cell.rename ρ.move) (load a : Run H K V n (Cell H V)) (load (ρ.move a)) := by
  constructor
  · intro s
    unfold load
    rcases s.mem.get a with _ | cell <;> exact le_rfl
  · intro s inside _
    have here : (s.spread ρ foreign).mem.get (ρ.move a) = (s.mem.get a).map (Cell.rename ρ.move) :=
      Memory.spread_get inside a
    unfold load
    rw [here]
    rcases s.mem.get a with _ | cell <;> rfl

theorem follows_store (a : Addr) (cell : Cell H V) :
    Follows ρ foreign id (store a cell : Run H K V n Unit) (store (ρ.move a) (cell.rename ρ.move)) :=
  Exec.Tracks.write (fun _ => le_rfl) fun _ inside =>
    congrArg (fun mem => St.mk mem _) (Memory.spread_set inside a cell)

theorem follows_new (cell : Cell H V) :
    Follows ρ foreign ρ.move (new cell : Run H K V n Addr) (new (cell.rename ρ.move)) := by
  constructor
  · intro s
    unfold new
    split_ifs
    · exact le_rfl
    · exact Nat.le_succ _
  · intro s inside
    have fails : (s.spread ρ foreign).mem.failAt = some (s.spread ρ foreign).mem.next ↔
        s.mem.failAt = some s.mem.next := Memory.spread_failAt
    unfold new
    by_cases here : s.mem.failAt = some s.mem.next
    · rw [if_pos here, if_pos (fails.mpr here)]
      intro _
      rfl
    · rw [if_neg here, if_neg (fun there => here (fails.mp there))]
      intro inside'
      refine congrArg₂ EStateM.Result.ok (Shift.move_next inside inside').symm ?_
      exact congrArg (fun mem => St.mk mem _) (Memory.spread_alloc inside inside' cell)

theorem follows_delete (a : Addr) :
    Follows ρ foreign id (delete a : Run H K V n Unit) (delete (ρ.move a)) := by
  refine (follows_load a).bind fun _ => ?_
  exact Exec.Tracks.write (fun _ => le_rfl) fun _ inside => congrArg (fun mem => St.mk mem _)
    (Memory.spread_free inside a)

theorem follows_onThrow {p q : Run H K V n α} {f : α → α} {c d : Run H K V n Unit}
    (body : Follows ρ foreign f p q) (cleanup : Follows ρ foreign id c d) :
    Follows ρ foreign f (onThrow p c) (onThrow q d) := by
  have caught : Follows ρ foreign f (do c; throw .badAlloc) (do d; throw .badAlloc) :=
    cleanup.bind fun _ => Exec.Tracks.throw _
  constructor
  · intro s
    have grows := body.grows s
    unfold onThrow
    rcases run : p s with ⟨x, t⟩ | ⟨fault, t⟩ <;> rw [run] at grows
    · exact grows
    · cases fault with
      | badAlloc => exact grows.trans (caught.grows t)
      | nullPointer | dangling | badCast | outOfBounds | unreachable | recursion => exact grows
  · intro s inside inside'
    have grows := body.grows s
    have same := body.same s inside
    unfold onThrow at inside' ⊢
    rcases run : p s with ⟨x, t⟩ | ⟨fault, t⟩ <;> rw [run] at grows same inside'
    · rw [same inside']
      rfl
    · cases fault with
      | badAlloc =>
          have between : t.mem.next ∈ ρ.span :=
            Set.OrdConnected.out inferInstance inside inside' ⟨grows, caught.grows t⟩
          rw [same between]
          exact caught.same t between inside'
      | nullPointer | dangling | badCast | outOfBounds | unreachable | recursion =>
          rw [same inside']
          rfl

theorem follows_deref (p : Option Addr) :
    Follows ρ foreign ρ.move (deref p : Run H K V n Addr) (deref (p.map ρ.move)) := by
  cases p with
  | none => exact Exec.Tracks.throw _
  | some a => exact Exec.Tracks.pure _ a

theorem follows_parentOf (a : Addr) :
    Follows ρ foreign (Option.map ρ.move) (parentOf a : Run H K V n (Option Addr)) (parentOf (ρ.move a)) := by
  refine (follows_load a).bind fun cell => ?_
  exact Exec.Tracks.pure _ cell.parent

theorem follows_setParent (a : Addr) (parent : Option Addr) :
    Follows ρ foreign id (setParent a parent : Run H K V n Unit)
      (setParent (ρ.move a) (parent.map ρ.move)) := by
  refine (follows_load a).bind fun cell => ?_
  exact follows_store a ⟨parent, cell.body⟩

theorem follows_leafValue (a : Addr) :
    Follows ρ foreign id (leafValue a : Run H K V n V) (leafValue (ρ.move a)) := by
  refine (follows_load a).bind fun cell => ?_
  rcases cell with ⟨p, body⟩
  cases body with
  | leaf v => exact Exec.Tracks.pure id v
  | baseLeaf | dummy | inner => exact Exec.Tracks.throw _

theorem follows_headerOf (a : Addr) :
    Follows ρ foreign id (headerOf a : Run H K V n H) (headerOf (ρ.move a)) := by
  refine (follows_load a).bind fun cell => ?_
  rcases cell with ⟨p, body⟩
  cases body with
  | inner h l => exact Exec.Tracks.pure id h
  | baseLeaf | dummy | leaf => exact Exec.Tracks.throw _

theorem follows_setHeader (a : Addr) (header : H) :
    Follows ρ foreign id (setHeader a header : Run H K V n Unit) (setHeader (ρ.move a) header) := by
  refine (follows_load a).bind fun cell => ?_
  rcases cell with ⟨p, body⟩
  cases body with
  | inner h l => exact follows_store a ⟨p, .inner header l⟩
  | baseLeaf | dummy | leaf => exact Exec.Tracks.throw _

theorem follows_chunkAt (key : Key n) (i : ℤ) :
    Follows ρ foreign id (chunkAt key i : Run H K V n Byte) (chunkAt key i) := by
  unfold chunkAt
  split_ifs
  · exact Exec.Tracks.pure id _
  · exact Exec.Tracks.throw _

theorem follows_isLeaf (a : Addr) :
    Follows ρ foreign id (isLeaf a : Run H K V n Bool) (isLeaf (ρ.move a)) := by
  refine (follows_load a).bind fun cell => ?_
  rcases cell with ⟨p, body⟩
  cases body <;> exact Exec.Tracks.pure id _

theorem follows_getType (a : Addr) :
    Follows ρ foreign id (getType a : Run H K V n NodeType) (getType (ρ.move a)) := by
  refine (follows_load a).bind fun cell => ?_
  rcases cell with ⟨p, body⟩
  cases body with
  | inner h l =>
      show Follows ρ foreign id (pure l.getType) (pure (l.rename ρ.move).getType)
      rw [Layout.rename_getType]
      exact Exec.Tracks.pure id _
  | baseLeaf | dummy | leaf => exact Exec.Tracks.pure id _

theorem follows_sizeOf (a : Addr) :
    Follows ρ foreign id (sizeOf a : Run H K V n ℕ) (sizeOf (ρ.move a)) := by
  refine (follows_load a).bind fun cell => ?_
  rcases cell with ⟨p, body⟩
  cases body with
  | inner h l =>
      show Follows ρ foreign id (pure l.count) (pure (l.rename ρ.move).count)
      rw [Layout.rename_count]
      exact Exec.Tracks.pure id _
  | baseLeaf | dummy | leaf => exact Exec.Tracks.pure id _

theorem follows_minSizeOf (a : Addr) :
    Follows ρ foreign id (minSizeOf a : Run H K V n ℕ) (minSizeOf (ρ.move a)) := by
  refine (follows_load a).bind fun cell => ?_
  rcases cell with ⟨p, body⟩
  cases body with
  | inner h l =>
      show Follows ρ foreign id (pure l.minSize) (pure (l.rename ρ.move).minSize)
      rw [Layout.rename_minSize]
      exact Exec.Tracks.pure id _
  | baseLeaf | dummy | leaf => exact Exec.Tracks.pure id _

theorem follows_maxSizeOf (a : Addr) :
    Follows ρ foreign id (maxSizeOf a : Run H K V n ℕ) (maxSizeOf (ρ.move a)) := by
  refine (follows_load a).bind fun cell => ?_
  rcases cell with ⟨p, body⟩
  cases body with
  | inner h l =>
      show Follows ρ foreign id (pure l.maxSize) (pure (l.rename ρ.move).maxSize)
      rw [Layout.rename_maxSize]
      exact Exec.Tracks.pure id _
  | baseLeaf | dummy | leaf => exact Exec.Tracks.pure id _

theorem follows_findChild (a : Addr) (b : Byte) :
    Follows ρ foreign (Option.map ρ.move) (findChild a b : Run H K V n (Option Addr))
      (findChild (ρ.move a) b) := by
  refine (follows_load a).bind fun cell => ?_
  rcases cell with ⟨p, body⟩
  cases body with
  | inner h l =>
      show Follows ρ foreign _ (Exec.lift (l.find b)) (Exec.lift ((l.rename ρ.move).find b))
      rw [Layout.rename_find]
      exact Exec.Tracks.lift _ _
  | baseLeaf | dummy | leaf => exact Exec.Tracks.pure (Option.map ρ.move) none

theorem follows_insertChild (a : Addr) (b : Byte) (c : Addr) :
    Follows ρ foreign id (insertChild a b c : Run H K V n Unit) (insertChild (ρ.move a) b (ρ.move c)) := by
  refine (follows_load a).bind fun cell => ?_
  rcases cell with ⟨p, body⟩
  cases body with
  | inner h l =>
      show Follows ρ foreign id (Exec.lift (l.insert b c) >>= _)
        (Exec.lift ((l.rename ρ.move).insert b (ρ.move c)) >>= _)
      rw [Layout.rename_insert]
      refine (Exec.Tracks.lift _ _).bind fun l' => ?_
      exact follows_store a ⟨p, .inner h l'⟩
  | baseLeaf | dummy | leaf => exact Exec.Tracks.pure id _

theorem follows_eraseChild (a : Addr) (b : Byte) :
    Follows ρ foreign id (eraseChild a b : Run H K V n Unit) (eraseChild (ρ.move a) b) := by
  refine (follows_load a).bind fun cell => ?_
  rcases cell with ⟨p, body⟩
  cases body with
  | inner h l =>
      show Follows ρ foreign id (Exec.lift (l.erase b) >>= _) (Exec.lift ((l.rename ρ.move).erase b) >>= _)
      rw [Layout.rename_erase]
      refine (Exec.Tracks.lift _ _).bind fun r => ?_
      rcases r with ⟨_ | c, l'⟩
      · exact follows_store a ⟨p, .inner h l'⟩
      · refine (follows_delete c).bind fun _ => ?_
        exact follows_store a ⟨p, .inner h l'⟩
  | baseLeaf | dummy | leaf => exact Exec.Tracks.pure id _

theorem follows_replaceChild (a : Addr) (b : Byte) (c : Addr) :
    Follows ρ foreign id (replaceChild a b c : Run H K V n Unit) (replaceChild (ρ.move a) b (ρ.move c)) := by
  refine (follows_load a).bind fun cell => ?_
  rcases cell with ⟨p, body⟩
  cases body with
  | inner h l =>
      show Follows ρ foreign id (Exec.lift (l.updateChildPtr b c) >>= _)
        (Exec.lift ((l.rename ρ.move).updateChildPtr b (ρ.move c)) >>= _)
      rw [Layout.rename_updateChildPtr]
      refine (Exec.Tracks.lift _ _).bind fun l' => ?_
      exact follows_store a ⟨p, .inner h l'⟩
  | dummy root e => exact follows_store a ⟨p, .dummy (some c) e⟩
  | baseLeaf | leaf => exact Exec.Tracks.pure id _

theorem follows_extremeFrom (dir : Dir) : ∀ (calls : ℕ) (a : Addr),
    Follows ρ foreign ρ.move (extremeFrom dir calls a : Run H K V n Addr) (extremeFrom dir calls (ρ.move a))
  | 0, _ => Exec.Tracks.throw _
  | calls + 1, a => by
      refine (follows_load a).bind fun cell => ?_
      rcases cell with ⟨p, body⟩
      cases body with
      | inner h l =>
          show Follows ρ foreign ρ.move (Exec.lift (l.extremeChild dir) >>= _)
            (Exec.lift ((l.rename ρ.move).extremeChild dir) >>= _)
          rw [Layout.rename_extremeChild]
          refine (Exec.Tracks.lift _ _).bind fun c => ?_
          exact follows_extremeFrom dir calls c
      | dummy root e => exact Exec.Tracks.pure _ e
      | baseLeaf | leaf => exact Exec.Tracks.pure _ a

theorem follows_extreme (dir : Dir) (a : Addr) :
    Follows ρ foreign ρ.move (extreme dir a : Run H K V n Addr) (extreme dir (ρ.move a)) :=
  follows_extremeFrom dir _ a

theorem follows_neighbourFrom [Header H] (dir : Dir) (key : Key n) : ∀ (calls : ℕ) (a : Addr),
    Follows ρ foreign ρ.move (neighbourFrom dir key calls a : Run H K V n Addr)
      (neighbourFrom dir key calls (ρ.move a))
  | 0, _ => Exec.Tracks.throw _
  | calls + 1, a => by
      refine (follows_load a).bind fun cell => ?_
      rcases cell with ⟨p, body⟩
      cases body with
      | inner h l =>
          refine (follows_chunkAt key _).bind fun b => ?_
          show Follows ρ foreign ρ.move (Exec.lift (l.childBeyond dir b) >>= _)
            (Exec.lift ((l.rename ρ.move).childBeyond dir b) >>= _)
          rw [Layout.rename_childBeyond]
          refine (Exec.Tracks.lift _ _).bind fun child => ?_
          cases child with
          | some c => exact follows_extreme dir c
          | none => exact (follows_deref p).bind fun parent => follows_neighbourFrom dir key calls parent
      | dummy root e =>
          cases dir with
          | up => exact Exec.Tracks.pure _ e
          | down =>
              cases root with
              | some r => exact follows_extreme .down r
              | none => exact Exec.Tracks.pure _ e
      | baseLeaf | leaf => exact Exec.Tracks.pure _ a

theorem follows_clearBelow : ∀ (calls : ℕ) (a : Addr),
    Follows ρ foreign id (clearBelow calls a : Run H K V n Unit) (clearBelow calls (ρ.move a))
  | 0, _ => Exec.Tracks.throw _
  | calls + 1, a => by
      refine (follows_load a).bind fun cell => ?_
      rcases cell with ⟨p, body⟩
      cases body with
      | inner h l =>
          show Follows ρ foreign id (l.members.forM _) ((l.rename ρ.move).members.forM _)
          rw [Layout.rename_members]
          refine Exec.Tracks.forM (fun slot => ?_) _
          refine (Exec.Tracks.lift _ _).bind fun c => ?_
          refine (follows_deref c).bind fun child => ?_
          refine (follows_clearBelow calls child).bind fun _ => ?_
          exact follows_delete child
      | baseLeaf | dummy | leaf => exact Exec.Tracks.pure id _

/-! ### Grow and shrink -/

theorem follows_adopt (node : Addr) (kids : List (Option Addr)) :
    Follows ρ foreign id (adopt node kids : Run H K V n Unit)
      (adopt (ρ.move node) (kids.map (Option.map ρ.move))) := by
  refine Exec.Tracks.forM (fun kid => ?_) kids
  refine (follows_deref kid).bind fun c => ?_
  exact follows_setParent c (some node)

theorem follows_grow (a : Addr) :
    Follows ρ foreign ρ.move (grow a : Run H K V n Addr) (grow (ρ.move a)) := by
  refine (follows_load a).bind fun cell => ?_
  rcases cell with ⟨p, body⟩
  cases body with
  | inner h l =>
      show Follows ρ foreign ρ.move (Exec.lift l.grown >>= _) (Exec.lift (l.rename ρ.move).grown >>= _)
      rw [Layout.rename_grown]
      refine (Exec.Tracks.lift _ _).bind fun l' => ?_
      refine (follows_new ⟨p, .inner h l'⟩).bind fun node => ?_
      rw [Layout.rename_grownKids]
      refine (follows_adopt node l.grownKids).bind fun _ => ?_
      refine (follows_delete a).bind fun _ => ?_
      exact Exec.Tracks.pure _ node
  | baseLeaf | dummy | leaf => exact Exec.Tracks.throw _

/-- The result of `shrink` is renamed. -/
theorem follows_shrink (a : Addr) :
    Follows ρ foreign (Prod.map ρ.move id) (shrink a : Run H K V n (Addr × Bool)) (shrink (ρ.move a)) := by
  refine (follows_load a).bind fun cell => ?_
  rcases cell with ⟨p, body⟩
  have regroup (h : H) (l : Layout) : Follows ρ foreign (Prod.map ρ.move id)
      (do
        let shrunk ← Exec.lift l.shrunk
        let node ← new ⟨p, .inner h shrunk⟩
        adopt node l.shrunkKids
        delete a
        pure (node, true) : Run H K V n (Addr × Bool))
      (do
        let shrunk ← Exec.lift (l.rename ρ.move).shrunk
        let node ← new ⟨p.map ρ.move, .inner h shrunk⟩
        adopt node (l.rename ρ.move).shrunkKids
        delete (ρ.move a)
        pure (node, true)) := by
    rw [Layout.rename_shrunk, Layout.rename_shrunkKids]
    refine (Exec.Tracks.lift _ _).bind fun l' => ?_
    refine (follows_new ⟨p, .inner h l'⟩).bind fun node => ?_
    refine (follows_adopt node l.shrunkKids).bind fun _ => ?_
    refine (follows_delete a).bind fun _ => ?_
    exact Exec.Tracks.pure _ (node, true)
  cases body with
  | inner h l =>
      cases l with
      | node4 nd =>
          show Follows ρ foreign _ (Exec.lift (nd.childAt 0) >>= _)
            (Exec.lift ((nd.rename ρ.move).childAt 0) >>= _)
          rw [SortedNode.rename_childAt]
          refine (Exec.Tracks.lift _ _).bind fun c => ?_
          refine (follows_isLeaf c).bind fun leaf => ?_
          cases leaf with
          | true =>
              refine (follows_setParent c p).bind fun _ => ?_
              refine (follows_delete a).bind fun _ => ?_
              exact Exec.Tracks.pure _ (c, true)
          | false => exact Exec.Tracks.pure _ (a, false)
      | node16 nd => exact regroup h (.node16 nd)
      | node48 nd => exact regroup h (.node48 nd)
      | node256 nd => exact regroup h (.node256 nd)
  | baseLeaf | dummy | leaf => exact Exec.Tracks.throw _

theorem follows_newOneWay (c : Addr) (b : Byte) (h : H) :
    Follows ρ foreign ρ.move (newOneWay c b h : Run H K V n Addr) (newOneWay (ρ.move c) b h) := by
  refine (follows_parentOf c).bind fun p => ?_
  have body : Cell.rename ρ.move (⟨p, .inner h (.oneWay b c)⟩ : Cell H V)
      = ⟨p.map ρ.move, .inner h (.oneWay b (ρ.move c))⟩ := by
    rw [← Layout.rename_oneWay]
    rfl
  rw [← body]
  refine (follows_new _).bind fun node => ?_
  refine (follows_setParent c (some node)).bind fun _ => ?_
  exact Exec.Tracks.pure _ node

/-! ### Data members -/

theorem follows_this :
    Follows ρ foreign (Tree.rename ρ.move) (this : Run H K V n (Tree K n)) this :=
  ⟨fun _ => le_rfl, fun _ _ _ => rfl⟩

theorem follows_setRoot (root : Option Addr) :
    Follows ρ foreign id (setRoot root : Run H K V n Unit) (setRoot (root.map ρ.move)) :=
  Exec.Tracks.write (fun _ => le_rfl) fun _ _ => rfl

theorem follows_updateCount (count : ℕ → ℕ) :
    Follows ρ foreign id (updateCount count : Run H K V n Unit) (updateCount count) :=
  Exec.Tracks.write (fun _ => le_rfl) fun _ _ => rfl

theorem follows_linkDummy : Follows ρ foreign id (linkDummy : Run H K V n Unit) linkDummy := by
  refine follows_this.bind fun tree => ?_
  refine (follows_load tree.dummyNode).bind fun cell => ?_
  rcases cell with ⟨p, body⟩
  cases body with
  | dummy root e => exact follows_store tree.dummyNode ⟨p, .dummy tree.root e⟩
  | baseLeaf | leaf | inner => exact Exec.Tracks.throw _

theorem follows_replaceRoot (a : Addr) :
    Follows ρ foreign id (replaceRoot a : Run H K V n Unit) (replaceRoot (ρ.move a)) := by
  refine (follows_setRoot (some a)).bind fun _ => ?_
  exact follows_linkDummy

theorem follows_endIt : Follows ρ foreign ρ.move (endIt : Run H K V n Addr) endIt := by
  refine follows_this.bind fun tree => ?_
  refine (follows_load tree.dummyNode).bind fun cell => ?_
  rcases cell with ⟨p, body⟩
  cases body with
  | dummy root e => exact Exec.Tracks.pure _ e
  | baseLeaf | leaf | inner => exact Exec.Tracks.throw _

theorem follows_beginIt : Follows ρ foreign ρ.move (beginIt : Run H K V n Addr) beginIt := by
  refine follows_this.bind fun tree => ?_
  rcases tree with ⟨t, count, d, _ | root⟩
  · exact follows_endIt
  · exact follows_extreme .up root

theorem follows_clear : Follows ρ foreign id (clear : Run H K V n Unit) clear := by
  refine follows_this.bind fun tree => ?_
  have rest : Follows ρ foreign id (do setRoot none; updateCount fun _ => 0 : Run H K V n Unit)
      (do setRoot none; updateCount fun _ => 0) :=
    (follows_setRoot none).bind fun _ => follows_updateCount _
  rcases tree with ⟨t, count, d, _ | root⟩
  · exact rest
  · refine (follows_clearBelow _ root).bind fun _ => ?_
    refine (follows_delete root).bind fun _ => ?_
    exact rest

section Header

variable [Header H] (tr : Traits K V n)

theorem follows_updateChildPtr (parent child : Addr) (key : Key n) :
    Follows ρ foreign id (updateChildPtr parent child key : Run H K V n Unit)
      (updateChildPtr (ρ.move parent) (ρ.move child) key) := by
  refine (follows_getType parent).bind fun type => ?_
  show Follows ρ foreign id (if type = .dummyNode then _ else _) (if type = .dummyNode then _ else _)
  split_ifs
  · exact follows_replaceRoot child
  · refine (follows_headerOf parent).bind fun h => ?_
    refine (follows_chunkAt key _).bind fun b => ?_
    exact follows_replaceChild parent b child

theorem follows_advance (dir : Dir) (it : Addr) :
    Follows ρ foreign ρ.move (advance tr dir it : Run H K V n Addr) (advance tr dir (ρ.move it)) := by
  refine (follows_parentOf it).bind fun p => ?_
  refine (follows_deref p).bind fun parent => ?_
  refine (follows_getType parent).bind fun type => ?_
  show Follows ρ foreign ρ.move (if type = .dummyNode then _ else _) (if type = .dummyNode then _ else _)
  split_ifs
  · exact follows_neighbourFrom dir _ _ parent
  · refine (follows_leafValue it).bind fun v => ?_
    exact follows_neighbourFrom dir _ _ parent

end Header

section Variant

variable [Variant H] (tr : Traits K V n)

theorem follows_makeRoom (a : Addr) (key : Key n) :
    Follows ρ foreign ρ.move (makeRoom a key : Run H K V n Addr) (makeRoom (ρ.move a) key) := by
  refine (follows_sizeOf a).bind fun size => ?_
  refine (follows_maxSizeOf a).bind fun maxSize => ?_
  show Follows ρ foreign ρ.move (if size = maxSize then _ else _) (if size = maxSize then _ else _)
  split_ifs
  · refine (follows_grow a).bind fun node => ?_
    refine (follows_parentOf node).bind fun p => ?_
    refine (follows_deref p).bind fun parent => ?_
    refine (follows_updateChildPtr parent node key).bind fun _ => ?_
    exact Exec.Tracks.pure _ node
  · exact Exec.Tracks.pure _ a

theorem follows_insertLeaf (parent leaf : Addr) (key : Key n) :
    Follows ρ foreign ρ.move (insertLeaf parent leaf key : Run H K V n Addr)
      (insertLeaf (ρ.move parent) (ρ.move leaf) key) := by
  have rest : Follows ρ foreign ρ.move (do updateCount (· + 1); pure leaf : Run H K V n Addr)
      (do updateCount (· + 1); pure (ρ.move leaf)) :=
    (follows_updateCount _).bind fun _ => Exec.Tracks.pure _ leaf
  refine (follows_setParent leaf (some parent)).bind fun _ => ?_
  refine (follows_getType parent).bind fun type => ?_
  show Follows ρ foreign ρ.move (if type ≠ .dummyNode then _ else _) (if type ≠ .dummyNode then _ else _)
  split_ifs
  · refine (follows_headerOf parent).bind fun h => ?_
    refine (follows_chunkAt key _).bind fun b => ?_
    refine (follows_insertChild parent b leaf).bind fun _ => ?_
    exact rest
  · refine (follows_replaceRoot leaf).bind fun _ => ?_
    exact rest

end Variant

end Follows

/-- **The variants do not depend on the addresses of the nodes.** -/
class RelocatableVariant (H : Type) [Variant H] : Prop where
  enter {K V : Type} {n : ℕ} (ρ : Shift) (foreign : Addr → Option (Cell H V)) (tr : Traits K V n)
    (a : Addr) (key : Key n) (depth : ℕ) : Follows ρ foreign (Prod.map ρ.move id)
      (Variant.enter tr a key depth : Run H K V n (Addr × ℕ)) (Variant.enter tr (ρ.move a) key depth)
  splitLeaf {K V : Type} {n : ℕ} (ρ : Shift) (foreign : Addr → Option (Cell H V)) (limit : ℕ)
    (leaf : Addr) (existingKey key : Key n) (depth : ℕ) : Follows ρ foreign (Prod.map ρ.move id)
      (Variant.splitLeaf limit leaf existingKey key depth : Run H K V n (Addr × ℕ))
      (Variant.splitLeaf limit (ρ.move leaf) existingKey key depth)
  pass {K V : Type} {n : ℕ} (ρ : Shift) (foreign : Addr → Option (Cell H V)) (tr : Traits K V n)
    (a : Addr) (key : Key n) (depth : ℕ) : Follows ρ foreign id
      (Variant.pass tr a key depth : Run H K V n (Option ℕ)) (Variant.pass tr (ρ.move a) key depth)
  passStored {K V : Type} {n : ℕ} (ρ : Shift) (foreign : Addr → Option (Cell H V))
    (a : Addr) (key : Key n) (depth : ℕ) : Follows ρ foreign id
      (Variant.passStored a key depth : Run H K V n (Option ℕ)) (Variant.passStored (ρ.move a) key depth)
  fixAfterErase {K V : Type} {n : ℕ} (ρ : Shift) (foreign : Addr → Option (Cell H V))
    (a : Addr) (key : Key n) : Follows ρ foreign id
      (Variant.fixAfterErase a key : Run H K V n Unit) (Variant.fixAfterErase (ρ.move a) key)

section Members

variable [Variant H] [RelocatableVariant H] {ρ : Shift} {foreign : Addr → Option (Cell H V)}
variable (tr : Traits K V n)

/-- **The descent of an insertion**, with whatever is done where it ends. -/
theorem follows_insertLoop {α β : Type} {f : α → β} (limit : ℕ) (key : Key n)
    {duplicate : Addr → Run H K V n α} {place : Addr → ℤ → Run H K V n α}
    {duplicate' : Addr → Run H K V n β} {place' : Addr → ℤ → Run H K V n β}
    (found : ∀ a, Follows ρ foreign f (duplicate a) (duplicate' (ρ.move a)))
    (opened : ∀ a i, Follows ρ foreign f (place a i) (place' (ρ.move a) i)) :
    ∀ (steps depth : ℕ) (current : Option Addr) (previous : Addr),
      Follows ρ foreign f (insertLoop tr limit key duplicate place steps depth current previous)
        (insertLoop tr limit key duplicate' place' steps depth (current.map ρ.move) (ρ.move previous))
  | 0, _, _, _ => Exec.Tracks.throw _
  | steps + 1, depth, none, previous => by
      unfold insertLoop
      split_ifs
      · refine (follows_makeRoom previous key).bind fun node => ?_
        exact opened node _
      · exact Exec.Tracks.throw _
  | steps + 1, depth, some a, previous => by
      unfold insertLoop
      split_ifs
      · refine (follows_isLeaf a).bind fun leaf => ?_
        cases leaf with
        | true =>
            refine (follows_leafValue a).bind fun v => ?_
            refine follows_this.bind fun tree => ?_
            show Follows ρ foreign f (if key = tree.keyTransform (tr.keyOfValue v) then _ else _)
              (if key = tree.keyTransform (tr.keyOfValue v) then _ else _)
            split_ifs
            · exact found a
            · refine (RelocatableVariant.splitLeaf ρ foreign limit a _ key depth).bind fun r => ?_
              exact opened r.1 _
        | false =>
            refine (RelocatableVariant.enter ρ foreign tr a key depth).bind fun r => ?_
            refine (follows_chunkAt key _).bind fun b => ?_
            refine (follows_findChild r.1 b).bind fun child => ?_
            exact follows_insertLoop limit key found opened steps _ child r.1
      · exact Exec.Tracks.throw _

theorem follows_insertUnique (x : V) :
    Follows ρ foreign (Prod.map ρ.move id) (insertUnique tr x : Run H K V n (Addr × Bool))
      (insertUnique tr x) := by
  refine follows_this.bind fun tree => ?_
  rcases tree with ⟨t, count, d, _ | root⟩
  · refine (follows_new ⟨some d, .leaf x⟩).bind fun leaf => ?_
    refine (follows_setRoot (some leaf)).bind fun _ => ?_
    refine (follows_updateCount _).bind fun _ => ?_
    refine follows_linkDummy.bind fun _ => ?_
    exact Exec.Tracks.pure _ (leaf, true)
  · refine follows_insertLoop tr n _ (fun a => Exec.Tracks.pure _ (a, false)) (fun a i => ?_) (n + 1) 0
      (some root) d
    refine (follows_new ⟨some a, .leaf x⟩).bind fun leaf => ?_
    refine (follows_chunkAt _ i).bind fun b => ?_
    refine (follows_insertChild a b leaf).bind fun _ => ?_
    refine (follows_updateCount _).bind fun _ => ?_
    exact Exec.Tracks.pure _ (leaf, true)

theorem follows_getInsertUniquePos (key : Key n) :
    Follows ρ foreign ρ.move (getInsertUniquePos tr key : Run H K V n Addr) (getInsertUniquePos tr key) := by
  refine follows_this.bind fun tree => ?_
  rcases tree with ⟨t, count, d, _ | root⟩
  · exact Exec.Tracks.pure _ d
  · exact follows_insertLoop tr _ key (fun a => Exec.Tracks.pure _ a) (fun a _ => Exec.Tracks.pure _ a)
      (n + 1) 0 (some root) d

theorem follows_emplaceUnique (x : V) :
    Follows ρ foreign (Prod.map ρ.move id) (emplaceUnique tr x : Run H K V n (Addr × Bool))
      (emplaceUnique tr x) := by
  refine (follows_onThrow (follows_new ⟨none, .leaf x⟩) (Exec.Tracks.throw _)).bind fun leaf => ?_
  refine follows_onThrow ?_ (follows_delete leaf)
  refine follows_this.bind fun tree => ?_
  refine (follows_leafValue leaf).bind fun v => ?_
  refine (follows_getInsertUniquePos tr _).bind fun node => ?_
  refine (follows_getType node).bind fun type => ?_
  show Follows ρ foreign _ (if type ≠ .leaf then _ else _) (if type ≠ .leaf then _ else _)
  split_ifs
  · refine (follows_insertLeaf node leaf _).bind fun it => ?_
    exact Exec.Tracks.pure _ (it, true)
  · refine (follows_delete leaf).bind fun _ => ?_
    exact Exec.Tracks.pure _ (node, false)

theorem follows_eraseLoop (key : Key n) : ∀ (steps depth : ℕ) (a : Addr),
    Follows ρ foreign id (eraseLoop tr key steps depth a : Run H K V n ℕ)
      (eraseLoop tr key steps depth (ρ.move a))
  | 0, _, _ => Exec.Tracks.throw _
  | steps + 1, depth, a => by
      unfold eraseLoop
      split_ifs
      · refine (RelocatableVariant.pass ρ foreign tr a key depth).bind fun reached => ?_
        cases reached with
        | none => exact Exec.Tracks.pure id 0
        | some depth =>
            refine (follows_chunkAt key _).bind fun b => ?_
            refine (follows_findChild a b).bind fun child => ?_
            cases child with
            | none => exact Exec.Tracks.pure id 0
            | some c =>
                refine (follows_isLeaf c).bind fun leaf => ?_
                cases leaf with
                | true =>
                    refine (follows_leafValue c).bind fun v => ?_
                    refine follows_this.bind fun tree => ?_
                    show Follows ρ foreign id (if key = tree.keyTransform (tr.keyOfValue v) then _ else _)
                      (if key = tree.keyTransform (tr.keyOfValue v) then _ else _)
                    split_ifs
                    · refine (follows_eraseChild a b).bind fun _ => ?_
                      refine (follows_updateCount _).bind fun _ => ?_
                      refine (RelocatableVariant.fixAfterErase ρ foreign a key).bind fun _ => ?_
                      exact Exec.Tracks.pure id 1
                    · exact Exec.Tracks.pure id 0
                | false => exact follows_eraseLoop key steps _ c
      · exact Exec.Tracks.throw _

theorem follows_eraseUnique (k : K) :
    Follows ρ foreign id (eraseUnique tr k : Run H K V n ℕ) (eraseUnique tr k) := by
  refine follows_this.bind fun tree => ?_
  rcases tree with ⟨t, count, d, _ | root⟩
  · exact Exec.Tracks.pure id 0
  · refine (follows_isLeaf root).bind fun leaf => ?_
    cases leaf with
    | true =>
        refine (follows_leafValue root).bind fun v => ?_
        show Follows ρ foreign id (if t k = t (tr.keyOfValue v) then _ else _)
          (if t k = t (tr.keyOfValue v) then _ else _)
        split_ifs
        · refine (follows_delete root).bind fun _ => ?_
          refine (follows_setRoot none).bind fun _ => ?_
          refine (follows_updateCount _).bind fun _ => ?_
          exact Exec.Tracks.pure id 1
        · exact Exec.Tracks.pure id 0
    | false => exact follows_eraseLoop tr _ n 0 root

theorem follows_eraseAt (it : Addr) :
    Follows ρ foreign ρ.move (eraseAt tr it : Run H K V n Addr) (eraseAt tr (ρ.move it)) := by
  refine (follows_advance tr .up it).bind fun next => ?_
  refine (follows_leafValue it).bind fun v => ?_
  refine follows_this.bind fun tree => ?_
  have here : some (ρ.move it) = (tree.rename ρ.move).root ↔ some it = tree.root := by
    show (some it).map ρ.move = tree.root.map ρ.move ↔ _
    exact (Option.map_injective Shift.injective).eq_iff
  show Follows ρ foreign ρ.move (if some it = tree.root then _ else _)
    (if some (ρ.move it) = (tree.rename ρ.move).root then _ else _)
  by_cases root : some it = tree.root
  · rw [if_pos root, if_pos (here.mpr root)]
    refine (follows_delete it).bind fun _ => ?_
    refine (follows_setRoot none).bind fun _ => ?_
    refine (follows_updateCount _).bind fun _ => ?_
    exact Exec.Tracks.pure _ next
  · rw [if_neg root, if_neg (fun there => root (here.mp there))]
    refine (follows_parentOf it).bind fun p => ?_
    refine (follows_deref p).bind fun node => ?_
    refine (follows_headerOf node).bind fun h => ?_
    refine (follows_chunkAt _ _).bind fun b => ?_
    refine (follows_eraseChild node b).bind fun _ => ?_
    refine (follows_updateCount _).bind fun _ => ?_
    refine (RelocatableVariant.fixAfterErase ρ foreign node _).bind fun _ => ?_
    exact Exec.Tracks.pure _ next

theorem follows_findLoop (key : Key n) : ∀ (steps depth : ℕ) (current : Option Addr),
    Follows ρ foreign ρ.move (findLoop tr key steps depth current : Run H K V n Addr)
      (findLoop tr key steps depth (current.map ρ.move))
  | 0, _, _ => Exec.Tracks.throw _
  | steps + 1, depth, none => by
      unfold findLoop
      split_ifs
      · exact follows_endIt
      · exact Exec.Tracks.throw _
  | steps + 1, depth, some a => by
      unfold findLoop
      split_ifs
      · refine (follows_isLeaf a).bind fun leaf => ?_
        cases leaf with
        | true =>
            refine (follows_leafValue a).bind fun v => ?_
            refine follows_this.bind fun tree => ?_
            show Follows ρ foreign ρ.move (if key = tree.keyTransform (tr.keyOfValue v) then _ else _)
              (if key = tree.keyTransform (tr.keyOfValue v) then _ else _)
            split_ifs
            · exact Exec.Tracks.pure _ a
            · exact follows_endIt
        | false =>
            refine (RelocatableVariant.passStored ρ foreign a key depth).bind fun reached => ?_
            cases reached with
            | none => exact follows_endIt
            | some depth =>
                refine (follows_chunkAt key _).bind fun b => ?_
                refine (follows_findChild a b).bind fun child => ?_
                exact follows_findLoop key steps _ child
      · exact Exec.Tracks.throw _

theorem follows_find (k : K) :
    Follows ρ foreign ρ.move (find tr k : Run H K V n Addr) (find tr k) := by
  refine follows_this.bind fun tree => ?_
  rcases tree with ⟨t, count, d, _ | root⟩
  · exact follows_endIt
  · exact follows_findLoop tr _ (n + 1) 0 (some root)

theorem follows_boundLoop (accept : Ordering → Bool) (key : Key n) :
    ∀ (steps depth : ℕ) (current previous : Option Addr),
      Follows ρ foreign ρ.move (boundLoop tr accept key steps depth current previous : Run H K V n Addr)
        (boundLoop tr accept key steps depth (current.map ρ.move) (previous.map ρ.move))
  | 0, _, _, _ => Exec.Tracks.throw _
  | steps + 1, depth, none, previous => by
      unfold boundLoop
      split_ifs
      · refine (follows_deref previous).bind fun node => ?_
        exact follows_neighbourFrom .up key _ node
      · exact Exec.Tracks.throw _
  | steps + 1, depth, some a, previous => by
      unfold boundLoop
      split_ifs
      · refine (follows_isLeaf a).bind fun leaf => ?_
        cases leaf with
        | true =>
            refine (follows_leafValue a).bind fun v => ?_
            refine follows_this.bind fun tree => ?_
            show Follows ρ foreign ρ.move
              (if accept (lexCompare key.chunks.toList
                (tree.keyTransform (tr.keyOfValue v)).chunks.toList) then _ else _)
              (if accept (lexCompare key.chunks.toList
                (tree.keyTransform (tr.keyOfValue v)).chunks.toList) then _ else _)
            split_ifs
            · exact Exec.Tracks.pure _ a
            · refine (follows_deref previous).bind fun node => ?_
              exact follows_neighbourFrom .up key _ node
        | false =>
            refine (RelocatableVariant.pass ρ foreign tr a key depth).bind fun reached => ?_
            cases reached with
            | none => exact follows_endIt
            | some depth =>
                refine (follows_chunkAt key _).bind fun b => ?_
                refine (follows_findChild a b).bind fun child => ?_
                exact follows_boundLoop accept key steps _ child (some a)
      · exact Exec.Tracks.throw _

theorem follows_bound (accept : Ordering → Bool) (k : K) :
    Follows ρ foreign ρ.move (bound tr accept k : Run H K V n Addr) (bound tr accept k) := by
  refine follows_this.bind fun tree => ?_
  rcases tree with ⟨t, count, d, _ | root⟩
  · exact follows_endIt
  · exact follows_boundLoop tr accept _ (n + 1) 0 (some root) none

end Members

/-! ### `ar_tree` -/

namespace ArTree

variable {ρ : Shift} {foreign : Addr → Option (Cell DepthHeader V)}

theorem follows_tiebreak (leaf : Addr) (existingKey key : Key n) : ∀ (steps j : ℕ) (current : Addr),
    Follows ρ foreign (Prod.map ρ.move id)
      (tiebreak leaf existingKey key steps j current : Run DepthHeader K V n (Addr × ℕ))
      (tiebreak (ρ.move leaf) existingKey key steps j (ρ.move current))
  | 0, _, _ => Exec.Tracks.throw _
  | steps + 1, j, current => by
      refine (follows_chunkAt existingKey j).bind fun existingByte => ?_
      refine (follows_chunkAt key j).bind fun keyByte => ?_
      show Follows ρ foreign _ (if existingByte = keyByte then _ else _)
        (if existingByte = keyByte then _ else _)
      split_ifs
      · refine (follows_chunkAt existingKey _).bind fun nextByte => ?_
        refine (follows_newOneWay leaf nextByte _).bind fun child => ?_
        refine (follows_replaceChild current existingByte child).bind fun _ => ?_
        exact follows_tiebreak leaf existingKey key steps (j + 1) child
      · exact Exec.Tracks.pure _ (current, j)

theorem follows_splitLeaf (limit : ℕ) (leaf : Addr) (existingKey key : Key n) (depth : ℕ) :
    Follows ρ foreign (Prod.map ρ.move id)
      (splitLeaf limit leaf existingKey key depth : Run DepthHeader K V n (Addr × ℕ))
      (splitLeaf limit (ρ.move leaf) existingKey key depth) := by
  refine (follows_chunkAt existingKey depth).bind fun keyByte => ?_
  refine (follows_newOneWay leaf keyByte _).bind fun node => ?_
  refine (follows_parentOf node).bind fun p => ?_
  refine (follows_deref p).bind fun parent => ?_
  refine (follows_updateChildPtr parent node existingKey).bind fun _ => ?_
  exact follows_tiebreak leaf existingKey key _ depth node

theorem follows_hoist (key : Key n) (depth : ℤ) : ∀ (steps : ℕ) (node : Addr) (j : ℤ),
    Follows ρ foreign id (hoist key depth steps node j : Run DepthHeader K V n (Bool × ℤ))
      (hoist key depth steps (ρ.move node) j)
  | 0, _, _ => Exec.Tracks.throw _
  | steps + 1, node, j => by
      refine (follows_isLeaf node).bind fun leaf => ?_
      cases leaf with
      | false => exact Exec.Tracks.pure id (false, j)
      | true =>
          refine (follows_parentOf node).bind fun p => ?_
          refine (follows_deref p).bind fun parent => ?_
          refine (follows_sizeOf parent).bind fun size => ?_
          show Follows ρ foreign id (if size ≤ 1 ∧ depth - j ≥ -1 then _ else _)
            (if size ≤ 1 ∧ depth - j ≥ -1 then _ else _)
          split_ifs
          · refine follows_this.bind fun tree => ?_
            refine (follows_getType parent).bind fun type => ?_
            show Follows ρ foreign id (if type = .dummyNode then _ else _) (if type = .dummyNode then _ else _)
            split_ifs
            · refine (follows_setParent node (some tree.dummyNode)).bind fun _ => ?_
              exact Exec.Tracks.pure id (true, j)
            · refine (follows_parentOf parent).bind fun p => ?_
              refine (follows_deref p).bind fun grandparent => ?_
              refine (follows_getType grandparent).bind fun type => ?_
              show Follows ρ foreign id (if type = .dummyNode then _ else _)
                (if type = .dummyNode then _ else _)
              split_ifs
              · refine (follows_setParent node (some tree.dummyNode)).bind fun _ => ?_
                refine (follows_delete parent).bind fun _ => ?_
                exact Exec.Tracks.pure id (true, j)
              · refine (follows_chunkAt key _).bind fun b => ?_
                refine (follows_replaceChild grandparent b node).bind fun _ => ?_
                refine (follows_setParent node (some grandparent)).bind fun _ => ?_
                refine (follows_delete parent).bind fun _ => ?_
                exact follows_hoist key depth steps node (j + 1)
          · exact Exec.Tracks.pure id (false, j)

theorem follows_shrinkLoop (key : Key n) (depth : ℤ) : ∀ (steps : ℕ) (node : Addr) (j : ℤ),
    Follows ρ foreign ρ.move (shrinkLoop key depth steps node j : Run DepthHeader K V n Addr)
      (shrinkLoop key depth steps (ρ.move node) j)
  | 0, _, _ => Exec.Tracks.throw _
  | steps + 1, node, j => by
      refine (follows_sizeOf node).bind fun size => ?_
      refine (follows_minSizeOf node).bind fun minSize => ?_
      show Follows ρ foreign ρ.move (if size < minSize then _ else _) (if size < minSize then _ else _)
      split_ifs
      · refine (follows_shrink node).bind fun r => ?_
        rcases r with ⟨shrunk, _ | _⟩
        · exact Exec.Tracks.pure _ node
        · refine (follows_hoist key depth _ shrunk j).bind fun r => ?_
          rcases r with ⟨_ | _, j⟩
          · exact follows_shrinkLoop key depth steps shrunk j
          · exact Exec.Tracks.pure _ shrunk
      · exact Exec.Tracks.pure _ node

theorem follows_fixAfterErase (node : Addr) (key : Key n) :
    Follows ρ foreign id (fixAfterErase node key : Run DepthHeader K V n Unit)
      (fixAfterErase (ρ.move node) key) := by
  refine (follows_headerOf node).bind fun h => ?_
  refine (follows_shrinkLoop key h.depth _ node 1).bind fun shrunk => ?_
  show Follows ρ foreign id (if shrunk = node then _ else _) (if ρ.move shrunk = ρ.move node then _ else _)
  simp only [Shift.move_inj]
  split_ifs
  · exact Exec.Tracks.pure id _
  · refine (follows_parentOf shrunk).bind fun p => ?_
    refine (follows_deref p).bind fun parent => ?_
    exact follows_updateChildPtr parent shrunk key

end ArTree

instance : RelocatableVariant DepthHeader where
  enter _ _ _ a _ depth := Exec.Tracks.pure _ (a, depth)
  splitLeaf _ _ := ArTree.follows_splitLeaf
  pass _ _ _ _ _ depth := Exec.Tracks.pure id (some depth)
  passStored _ _ _ _ depth := Exec.Tracks.pure id (some depth)
  fixAfterErase _ _ := ArTree.follows_fixAfterErase

/-! ### `ar_prefix_tree` -/

namespace ArPrefixTree

variable {ρ : Shift} {foreign : Addr → Option (Cell PrefixHeader V)} (tr : Traits K V n)

theorem follows_minKey (node : Addr) :
    Follows ρ foreign id (minKey tr node : Run PrefixHeader K V n (Key n)) (minKey tr (ρ.move node)) := by
  refine (follows_extreme .up node).bind fun leaf => ?_
  refine (follows_leafValue leaf).bind fun v => ?_
  exact Exec.Tracks.pure id (tr.defaultTransform (tr.keyOfValue v))

theorem follows_mismatchFrom (key : Key n) (depth : ℕ) {byteAt : ℕ → Run PrefixHeader K V n Byte}
    (read : ∀ pos, Follows ρ foreign id (byteAt pos) (byteAt pos)) : ∀ (count pos : ℕ),
      Follows ρ foreign id (mismatchFrom key depth byteAt count pos : Run PrefixHeader K V n (Option ℕ))
        (mismatchFrom key depth byteAt count pos)
  | 0, _ => Exec.Tracks.pure id none
  | count + 1, pos => by
      refine (follows_chunkAt key _).bind fun keyByte => ?_
      refine (read pos).bind fun b => ?_
      show Follows ρ foreign id (if keyByte ≠ b then _ else _) (if keyByte ≠ b then _ else _)
      split_ifs
      · exact Exec.Tracks.pure id (some pos)
      · exact follows_mismatchFrom key depth read count (pos + 1)

theorem follows_storedAt (header : PrefixHeader) (pos : ℕ) :
    Follows ρ foreign id (storedAt header pos : Run PrefixHeader K V n Byte) (storedAt header pos) := by
  unfold storedAt
  cases header.stored[pos]? with
  | some b => exact Exec.Tracks.pure id b
  | none => exact Exec.Tracks.throw _

theorem follows_pesPrefixMismatchPos (node : Addr) (key : Key n) :
    Follows ρ foreign id (pesPrefixMismatchPos node key : Run PrefixHeader K V n ℕ)
      (pesPrefixMismatchPos (ρ.move node) key) := by
  refine (follows_headerOf node).bind fun header => ?_
  refine (follows_mismatchFrom key header.depth (follows_storedAt header) _ 0).bind fun found => ?_
  cases found with
  | some pos => exact Exec.Tracks.pure id pos
  | none => exact Exec.Tracks.pure id _

theorem follows_prefixMismatchPos (node : Addr) (key : Key n) :
    Follows ρ foreign id (prefixMismatchPos tr node key : Run PrefixHeader K V n ℕ)
      (prefixMismatchPos tr (ρ.move node) key) := by
  refine (follows_headerOf node).bind fun header => ?_
  refine (follows_mismatchFrom key header.depth (follows_storedAt header) _ 0).bind fun found => ?_
  cases found with
  | some pos => exact Exec.Tracks.pure id pos
  | none =>
      show Follows ρ foreign id (if maxPrefixLength < header.prefixLength then _ else _)
        (if maxPrefixLength < header.prefixLength then _ else _)
      split_ifs
      · refine (follows_minKey tr node).bind fun minKey => ?_
        refine (follows_mismatchFrom key header.depth (fun pos => follows_chunkAt minKey _) _ _).bind fun
          found => ?_
        cases found with
        | some pos => exact Exec.Tracks.pure id pos
        | none => exact Exec.Tracks.pure id _
      · exact Exec.Tracks.pure id _

theorem follows_splitPrefixIntoParent (node : Addr) (mismatchPos : ℕ) :
    Follows ρ foreign ρ.move (splitPrefixIntoParent tr node mismatchPos : Run PrefixHeader K V n Addr)
      (splitPrefixIntoParent tr (ρ.move node) mismatchPos) := by
  refine (follows_headerOf node).bind fun header => ?_
  show Follows ρ foreign ρ.move (if header.prefixLength < maxPrefixLength then _ else _)
    (if header.prefixLength < maxPrefixLength then _ else _)
  split_ifs
  · refine (follows_storedAt header mismatchPos).bind fun b => ?_
    refine (follows_newOneWay node b _).bind fun newNode => ?_
    refine (Exec.Tracks.lift_same _).bind fun front => ?_
    refine (follows_setHeader newNode _).bind fun _ => ?_
    refine (Exec.Tracks.lift_same _).bind fun rest => ?_
    refine (follows_setHeader node _).bind fun _ => ?_
    exact Exec.Tracks.pure _ newNode
  · refine (follows_minKey tr node).bind fun minKey => ?_
    refine (follows_chunkAt minKey _).bind fun b => ?_
    refine (follows_newOneWay node b _).bind fun newNode => ?_
    refine (follows_setHeader newNode _).bind fun _ => ?_
    refine (Exec.Tracks.lift_same _).bind fun rest => ?_
    refine (follows_setHeader node _).bind fun _ => ?_
    exact Exec.Tracks.pure _ newNode

theorem follows_enter (current : Addr) (key : Key n) (depth : ℕ) :
    Follows ρ foreign (Prod.map ρ.move id)
      (enter tr current key depth : Run PrefixHeader K V n (Addr × ℕ))
      (enter tr (ρ.move current) key depth) := by
  refine (follows_prefixMismatchPos tr current key).bind fun pos => ?_
  refine (follows_headerOf current).bind fun header => ?_
  show Follows ρ foreign _ (if pos < header.prefixLength then _ else _)
    (if pos < header.prefixLength then _ else _)
  split_ifs
  · refine (follows_splitPrefixIntoParent tr current pos).bind fun newNode => ?_
    refine (follows_parentOf newNode).bind fun p => ?_
    refine (follows_deref p).bind fun parent => ?_
    refine (follows_updateChildPtr parent newNode key).bind fun _ => ?_
    exact Exec.Tracks.pure _ (newNode, depth + pos)
  · exact Exec.Tracks.pure _ (current, depth + pos)

theorem follows_pass (current : Addr) (key : Key n) (depth : ℕ) :
    Follows ρ foreign id (pass tr current key depth : Run PrefixHeader K V n (Option ℕ))
      (pass tr (ρ.move current) key depth) := by
  refine (follows_prefixMismatchPos tr current key).bind fun pos => ?_
  refine (follows_headerOf current).bind fun header => ?_
  show Follows ρ foreign id (if pos < header.prefixLength then _ else _)
    (if pos < header.prefixLength then _ else _)
  split_ifs
  · exact Exec.Tracks.pure id none
  · exact Exec.Tracks.pure id (some (depth + pos))

theorem follows_passStored (current : Addr) (key : Key n) (depth : ℕ) :
    Follows ρ foreign id (passStored current key depth : Run PrefixHeader K V n (Option ℕ))
      (passStored (ρ.move current) key depth) := by
  refine (follows_pesPrefixMismatchPos current key).bind fun pos => ?_
  refine (follows_headerOf current).bind fun header => ?_
  show Follows ρ foreign id (if pos < header.prefixLength then _ else _)
    (if pos < header.prefixLength then _ else _)
  split_ifs
  · exact Exec.Tracks.pure id none
  · exact Exec.Tracks.pure id (some (depth + pos))

theorem follows_tiebreak (leaf : Addr) (existingKey key : Key n) (depth : ℕ) : ∀ (steps j : ℕ),
    Follows ρ foreign (Prod.map ρ.move id)
      (tiebreak leaf existingKey key depth steps j : Run PrefixHeader K V n (Addr × ℕ))
      (tiebreak (ρ.move leaf) existingKey key depth steps j)
  | 0, _ => Exec.Tracks.throw _
  | steps + 1, j => by
      refine (follows_chunkAt key j).bind fun keyByte => ?_
      refine (follows_chunkAt existingKey j).bind fun existingByte => ?_
      show Follows ρ foreign _ (if keyByte ≠ existingByte then _ else _)
        (if keyByte ≠ existingByte then _ else _)
      split_ifs
      · refine (follows_newOneWay leaf existingByte _).bind fun inner => ?_
        refine (follows_parentOf inner).bind fun p => ?_
        refine (follows_deref p).bind fun parent => ?_
        refine (follows_updateChildPtr parent inner existingKey).bind fun _ => ?_
        refine (Exec.Tracks.lift_same _).bind fun front => ?_
        refine (follows_setHeader inner _).bind fun _ => ?_
        exact Exec.Tracks.pure _ (inner, j)
      · exact follows_tiebreak leaf existingKey key depth steps (j + 1)

theorem follows_compressNodeIntoChild (node : Addr) :
    Follows ρ foreign ρ.move (compressNodeIntoChild node : Run PrefixHeader K V n Addr)
      (compressNodeIntoChild (ρ.move node)) := by
  refine (follows_load node).bind fun cell => ?_
  rcases cell with ⟨p, body⟩
  cases body with
  | inner header l =>
      cases l with
      | node4 nd =>
          show Follows ρ foreign _ (Exec.lift (nd.childAt 0) >>= _)
            (Exec.lift ((nd.rename ρ.move).childAt 0) >>= _)
          rw [SortedNode.rename_childAt]
          refine (Exec.Tracks.lift _ _).bind fun child => ?_
          refine (follows_getType child).bind fun type => ?_
          show Follows ρ foreign ρ.move (if type = .leaf then _ else _) (if type = .leaf then _ else _)
          by_cases leaf : type = .leaf
          · rw [if_pos leaf, if_pos leaf]
            refine (follows_setParent child p).bind fun _ => ?_
            split_ifs
            · refine (follows_replaceRoot child).bind fun _ => ?_
              refine (follows_delete node).bind fun _ => ?_
              exact Exec.Tracks.pure _ child
            · refine (follows_delete node).bind fun _ => ?_
              exact Exec.Tracks.pure _ child
          · rw [if_neg leaf, if_neg leaf]
            refine (follows_headerOf child).bind fun childHeader => ?_
            refine (Exec.Tracks.lift_same _).bind fun stored => ?_
            refine (follows_setHeader child _).bind fun _ => ?_
            refine (follows_setParent child p).bind fun _ => ?_
            refine (follows_delete node).bind fun _ => ?_
            exact Exec.Tracks.pure _ child
      | node16 | node48 | node256 => exact Exec.Tracks.throw _
  | baseLeaf | dummy | leaf => exact Exec.Tracks.throw _

theorem follows_fixAfterErase (node : Addr) (key : Key n) :
    Follows ρ foreign id (fixAfterErase node key : Run PrefixHeader K V n Unit)
      (fixAfterErase (ρ.move node) key) := by
  have shrunken (size minSize : ℕ) : Follows ρ foreign ρ.move
      (if size < minSize then do
        let r ← shrink node
        let parent ← deref (← parentOf r.1)
        updateChildPtr parent r.1 key
        pure r.1
      else pure node : Run PrefixHeader K V n Addr)
      (if size < minSize then do
        let r ← shrink (ρ.move node)
        let parent ← deref (← parentOf r.1)
        updateChildPtr parent r.1 key
        pure r.1
      else pure (ρ.move node)) := by
    split_ifs
    · refine (follows_shrink node).bind fun r => ?_
      refine (follows_parentOf r.1).bind fun p => ?_
      refine (follows_deref p).bind fun parent => ?_
      refine (follows_updateChildPtr parent r.1 key).bind fun _ => ?_
      exact Exec.Tracks.pure _ r.1
    · exact Exec.Tracks.pure _ node
  refine (follows_sizeOf node).bind fun size => ?_
  refine (follows_minSizeOf node).bind fun minSize => ?_
  refine (shrunken size minSize).bind fun node => ?_
  refine (follows_getType node).bind fun type => ?_
  refine (follows_sizeOf node).bind fun size => ?_
  show Follows ρ foreign id (if type = .node4 ∧ size = 1 then _ else _)
    (if type = .node4 ∧ size = 1 then _ else _)
  split_ifs
  · refine (follows_compressNodeIntoChild node).bind fun child => ?_
    refine (follows_parentOf child).bind fun p => ?_
    refine (follows_deref p).bind fun parent => ?_
    exact follows_updateChildPtr parent child key
  · exact Exec.Tracks.pure id _

end ArPrefixTree

instance : RelocatableVariant PrefixHeader where
  enter _ _ := ArPrefixTree.follows_enter
  splitLeaf _ _ limit leaf existingKey key depth :=
    ArPrefixTree.follows_tiebreak leaf existingKey key depth (limit - depth) depth
  pass _ _ := ArPrefixTree.follows_pass
  passStored _ _ := ArPrefixTree.follows_passStored
  fixAfterErase _ _ := ArPrefixTree.follows_fixAfterErase

end CppArt
