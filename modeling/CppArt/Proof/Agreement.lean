/-
**`insert_unique` and `emplace_unique` do the same.**

`emplace_unique` allocates the leaf first and `insert_unique` last. The descent of the one is that of the
other among foreign cells: the leaf lies in a gap in front of the new inner nodes. A rotation of the new
addresses takes the resulting containers to each other.

* `insertLoop_extends`: the limits of the two loops do not matter;
* `insertion_agrees`, `insertions_agree`.
-/

import CppArt.Proof.Addresses

namespace CppArt

variable {H K V : Type} {n : ℕ}

/-! ### The limits of the loops -/

theorem ArTree.tiebreak_extends (leaf : Addr) (existingKey key : Key n) :
    ∀ {steps steps' : ℕ} (_ : steps ≤ steps') (j : ℕ) (current : Addr),
      Exec.Extends (tiebreak leaf existingKey key steps j current : Run DepthHeader K V n (Addr × ℕ))
        (tiebreak leaf existingKey key steps' j current)
  | 0, _, _, _, _ => Exec.Extends.throw _ _
  | steps + 1, steps' + 1, le, j, current => by
      refine (Exec.Extends.refl _).bind fun existingByte => ?_
      refine (Exec.Extends.refl _).bind fun keyByte => ?_
      split_ifs
      · refine (Exec.Extends.refl _).bind fun nextByte => ?_
        refine (Exec.Extends.refl _).bind fun child => ?_
        refine (Exec.Extends.refl _).bind fun _ => ?_
        exact tiebreak_extends leaf existingKey key (Nat.le_of_succ_le_succ le) (j + 1) child
      · exact Exec.Extends.refl _

theorem ArPrefixTree.tiebreak_extends (leaf : Addr) (existingKey key : Key n) (depth : ℕ) :
    ∀ {steps steps' : ℕ} (_ : steps ≤ steps') (j : ℕ),
      Exec.Extends (tiebreak leaf existingKey key depth steps j : Run PrefixHeader K V n (Addr × ℕ))
        (tiebreak leaf existingKey key depth steps' j)
  | 0, _, _, _ => Exec.Extends.throw _ _
  | steps + 1, steps' + 1, le, j => by
      refine (Exec.Extends.refl _).bind fun keyByte => ?_
      refine (Exec.Extends.refl _).bind fun existingByte => ?_
      split_ifs
      · exact Exec.Extends.refl _
      · exact tiebreak_extends leaf existingKey key depth (Nat.le_of_succ_le_succ le) (j + 1)

/-- **With a greater limit, a leaf is split in the same way.** -/
class StretchableVariant (H : Type) [Variant H] : Prop where
  splitLeaf {K V : Type} {n : ℕ} {limit limit' : ℕ} (le : limit ≤ limit') (leaf : Addr)
    (existingKey key : Key n) (depth : ℕ) : Exec.Extends
      (Variant.splitLeaf limit leaf existingKey key depth : Run H K V n (Addr × ℕ))
      (Variant.splitLeaf limit' leaf existingKey key depth)

instance : StretchableVariant DepthHeader where
  splitLeaf {K V n limit limit'} le leaf existingKey key depth := by
    have rounds : limit - depth ≤ limit' - depth := Nat.sub_le_sub_right le depth
    refine (Exec.Extends.refl _).bind fun _ => ?_
    refine (Exec.Extends.refl _).bind fun node => ?_
    refine (Exec.Extends.refl _).bind fun _ => ?_
    refine (Exec.Extends.refl _).bind fun _ => ?_
    refine (Exec.Extends.refl _).bind fun _ => ?_
    exact ArTree.tiebreak_extends leaf existingKey key rounds depth node

instance : StretchableVariant PrefixHeader where
  splitLeaf le leaf existingKey key depth :=
    ArPrefixTree.tiebreak_extends leaf existingKey key depth (Nat.sub_le_sub_right le depth) depth

/-- **With a greater limit, the loop ends where it ended.** -/
theorem insertLoop_extends {α : Type} [Variant H] [StretchableVariant H] (tr : Traits K V n) {limit limit' : ℕ}
    (le : limit ≤ limit') (key : Key n) (duplicate : Addr → Run H K V n α)
    (place : Addr → ℤ → Run H K V n α) : ∀ (steps depth : ℕ) (current : Option Addr) (previous : Addr),
      Exec.Extends (insertLoop tr limit key duplicate place steps depth current previous)
        (insertLoop tr limit' key duplicate place steps depth current previous)
  | 0, _, _, _ => Exec.Extends.throw _ _
  | steps + 1, depth, none, previous => by
      unfold insertLoop
      exact Exec.Extends.refl _
  | steps + 1, depth, some a, previous => by
      unfold insertLoop
      split_ifs
      · refine (Exec.Extends.refl _).bind fun leaf => ?_
        cases leaf with
        | true =>
            refine (Exec.Extends.refl _).bind fun v => ?_
            refine (Exec.Extends.refl _).bind fun tree => ?_
            show Exec.Extends (if key = tree.keyTransform (tr.keyOfValue v) then _ else _)
              (if key = tree.keyTransform (tr.keyOfValue v) then _ else _)
            split_ifs
            · exact Exec.Extends.refl _
            · refine (StretchableVariant.splitLeaf le a _ key depth).bind fun r => ?_
              exact Exec.Extends.refl _
        | false =>
            refine (Exec.Extends.refl _).bind fun r => ?_
            refine (Exec.Extends.refl _).bind fun b => ?_
            refine (Exec.Extends.refl _).bind fun child => ?_
            exact insertLoop_extends tr le key duplicate place steps _ child _
      · exact Exec.Extends.throw _ _

/-! ### The leaf that is allocated first -/

section Insertions

variable {tr : Traits K V n} {s : St H K V n} {e : Addr} {M : Contents n V} {own : Set Addr}

/-- The new cell lies in a gap in front of the addresses to come. -/
theorem St.Closed.alloc_eq_spread (closed : s.Closed) (calm : s.mem.failAt = none) (cell : Cell H V) :
    s.withMem (s.mem.alloc cell) = s.spread ⟨s.mem.next, 1, true⟩ fun _ => some cell := by
  have keeps : ∀ a < s.mem.next, (⟨s.mem.next, 1, true⟩ : Shift).move a = a :=
    fun _ lt => Shift.move_of_lt lt
  refine congrArg₂ St.mk (Memory.ext_spread (le_refl s.mem.next) (fun b => ?_) (fun a low gap => ?_) rfl ?_)
    (closed.rename_tree keeps).symm
  · rw [closed.rename_cells keeps]
    by_cases lt : b < s.mem.next
    · rw [keeps b lt, Memory.alloc_get_of_ne _ _ lt.ne]
    · have beyond : s.mem.next < b + 1 := Nat.lt_succ_of_le (not_lt.mp lt)
      rw [Shift.move_of_le (not_lt.mp lt), Memory.alloc_get_of_ne _ _ beyond.ne', s.mem.bounded _ beyond.le,
        s.mem.bounded b (not_lt.mp lt)]
  · rw [Nat.le_antisymm (Nat.le_of_lt_succ gap) low, Memory.alloc_get_next]
    rfl
  · show s.mem.failAt = s.mem.failAt.map _
    rw [calm]
    rfl

/-- Nothing is renamed. -/
theorem sameUpTo_refl {s' : St H K V n} {start : Addr} (cells : ∀ a, s'.mem.get a = s.mem.get a)
    (tree : s'.tree = s.tree) : SameUpTo start (Equiv.refl Addr) s s' := by
  have idle : ∀ a : Addr, Equiv.refl Addr a = a := fun _ => rfl
  refine ⟨fun _ _ => rfl, fun a => ?_, ?_⟩
  · rcases here : s.mem.get a with _ | cell
    · exact (cells a).trans here
    · rw [Option.map_some, Cell.rename_eq_self.mpr fun p _ => idle p]
      exact (cells a).trans here
  · rw [Tree.rename_eq_self.mpr fun p _ => idle p, tree]

variable [Variant H]

/-- What `emplace_unique` does once the position is known. -/
theorem emplaceUnique_of_position {x : V} {k : Key n} {node : Addr} {type : NodeType} {r : Addr × Bool}
    {s₂ s' : St H K V n} (calm : s.mem.failAt = none) (key : s.tree.keyTransform (tr.keyOfValue x) = k)
    (position : getInsertUniquePos tr k (s.withMem (s.mem.alloc ⟨none, .leaf x⟩)) = .ok node s₂)
    (typed : getType node s₂ = .ok type s₂)
    (finish : (if type ≠ .leaf then (do
          let it ← insertLeaf node s.mem.next k
          pure (it, true) : Run H K V n (Addr × Bool))
        else do
          delete s.mem.next
          pure (node, false)) s₂ = .ok r s') :
    emplaceUnique tr x s = .ok r s' := by
  have cell : (s.withMem (s.mem.alloc ⟨none, .leaf x⟩)).mem.get s.mem.next = some ⟨none, .leaf x⟩ :=
    Memory.alloc_get_next _ _
  unfold emplaceUnique
  refine (Exec.bind_of_ok (onThrow_ok (new_ok _ calm)) _).trans (onThrow_ok ?_)
  refine (Exec.bind_of_ok (this_apply _) _).trans ?_
  refine (Exec.bind_of_ok (leafValue_ok cell) _).trans ?_
  simp only [St.withMem, key]
  refine (Exec.bind_of_ok position _).trans ?_
  exact (Exec.bind_of_ok typed _).trans finish

variable [HeaderSpec H]

/-- **Into an empty container**, both put the leaf at the same address. -/
theorem insertion_first (holds : Holds tr s e M own) (root : s.tree.root = none) (x : V) :
    InsertsAlike tr s x := by
  have whole := holds.whole
  rw [root] at whole
  obtain ⟨-, -, endLeaf, link, sentinel⟩ := whole.of_none
  let leaf : Cell H V := ⟨some s.tree.dummyNode, .leaf x⟩
  have sentinel₁ := Memory.alloc_get_of_get sentinel leaf
  let mem₂ := (s.mem.alloc leaf).set s.tree.dummyNode ⟨some s.tree.dummyNode, .dummy (some s.mem.next) e⟩
  let s₁ : St H K V n := ⟨mem₂, { s.tree with root := some s.mem.next, count := s.tree.count + 1 }⟩
  refine ⟨s.mem.next, true, Equiv.refl Addr, s₁, s₁, ?_, ?_, sameUpTo_refl (fun _ => rfl) rfl⟩
  · unfold insertUnique
    rw [Exec.bind_of_ok (this_apply s)]
    simp only [root]
    rw [Exec.bind_of_ok (new_ok _ holds.calm), Exec.bind_of_ok (setRoot_apply _ _),
      Exec.bind_of_ok (updateCount_apply _ _)]
    exact Exec.bind_of_ok (linkDummy_ok (s := ((s.withMem (s.mem.alloc leaf)).withRoot
      (some s.mem.next)).withCount (s.tree.count + 1)) sentinel₁) _
  · let s₀ : St H K V n := s.withMem (s.mem.alloc ⟨none, .leaf x⟩)
    have position : getInsertUniquePos tr (tr.keyOf x) s₀ = .ok s.tree.dummyNode s₀ := by
      unfold getInsertUniquePos
      rw [Exec.bind_of_ok (this_apply _), show s₀.tree.root = none from root]
      rfl
    have sentinel₀ : s₀.mem.get s.tree.dummyNode = _ := Memory.alloc_get_of_get sentinel _
    have cell : s₀.mem.get s.mem.next = some ⟨none, .leaf x⟩ := Memory.alloc_get_next _ _
    refine emplaceUnique_of_position holds.calm (holds.key_eq x) position (getType_dummy sentinel₀) ?_
    rw [if_pos (by simp)]
    refine Exec.bind_of_ok ?_ _
    unfold insertLeaf
    rw [Exec.bind_of_ok (setParent_ok cell _)]
    rw [show s₀.mem.set s.mem.next ⟨some s.tree.dummyNode, .leaf x⟩ = s.mem.alloc leaf from
      Memory.alloc_set_next _ _ _]
    refine (Exec.bind_of_ok (getType_dummy (s := s₀.withMem (s.mem.alloc leaf)) sentinel₁) _).trans ?_
    rw [if_neg (by simp)]
    exact Exec.bind_of_ok (replaceRoot_ok (s := s₀.withMem (s.mem.alloc leaf)) s.mem.next sentinel₁) _

/-! ### The leaf in the opened node -/

omit [Variant H] [HeaderSpec H] in
/-- **The leaf has been put into a node**: as the last new cell, and in the gap. -/
theorem sameUpTo_placed {s' : St H K V n} {N q p : Addr} {h : H} {l : Layout} (l' : Layout) (x : V)
    (cell : Cell H V) (closed : s'.Closed) (le : N ≤ s'.mem.next) (node : s'.mem.get q = some ⟨some p, .inner h l⟩) :
    SameUpTo N (rotation le)
      (⟨(s'.mem.alloc ⟨some q, .leaf x⟩).set q ⟨some p, .inner h l'⟩,
        { s'.tree with count := s'.tree.count + 1 }⟩ : St H K V n)
      ⟨((s'.mem.spread ⟨N, 1, true⟩ (fun _ => some cell) (Cell.rename (⟨N, 1, true⟩ : Shift).move)).set N
          ⟨some (rotation le q), .leaf x⟩).set (rotation le q)
          ⟨some (rotation le p), .inner h (l'.rename (rotation le))⟩,
        { s'.tree.rename (rotation le) with count := s'.tree.count + 1 }⟩ := by
  let ρ : Shift := ⟨N, 1, true⟩
  have inside : s'.mem.next ∈ ρ.span := le
  have spread : ∀ a < s'.mem.next, (s'.mem.spread ρ (fun _ => some cell) (Cell.rename ρ.move)).get
      (rotation le a) = (s'.mem.get a).map (Cell.rename (rotation le)) := by
    intro a lt
    rw [rotation_of_lt le lt]
    refine (Memory.spread_get inside a).trans ?_
    rcases here : s'.mem.get a with _ | c
    · rfl
    · refine congrArg some (Cell.rename_inj.mpr fun p pointer => ?_)
      exact (rotation_of_lt le (closed.cells a c here p pointer)).symm
  have lt := Memory.lt_next_of_get node
  have other : rotation le q ≠ N := by
    rw [rotation_of_lt le lt]
    exact (@Shift.ne_move ρ N q (le_refl N) (Nat.lt_succ_self N)).symm
  have gap : (s'.mem.spread ρ (fun _ => some cell) (Cell.rename ρ.move)).get N = some cell :=
    Memory.spread_get_gap inside (le_refl N) (Nat.lt_succ_self N)
  refine ⟨fun a old => rotation_old le old, fun a => ?_, rfl⟩
  by_cases last : a = s'.mem.next
  · rw [last, rotation_last, Memory.set_get_of_ne _ _ other.symm, Memory.set_get_of_ne _ _ lt.ne',
      Memory.alloc_get_next]
    exact Memory.set_get_self gap _
  by_cases same : a = q
  · rw [same, Memory.set_get_self (Memory.alloc_get_of_get node _)]
    have moved := spread q lt
    rw [node] at moved
    exact Memory.set_get_self ((Memory.set_get_of_ne _ _ other).trans moved) _
  · have apart : rotation le a ≠ rotation le q := (rotation le).injective.ne same
    have front : rotation le a ≠ N := fun here =>
      last ((rotation le).injective (here.trans (rotation_last le).symm))
    rw [Memory.set_get_of_ne _ _ apart, Memory.set_get_of_ne _ _ front, Memory.set_get_of_ne _ _ same,
      Memory.alloc_get_of_ne _ _ last]
    rcases lt_or_gt_of_ne last with before | beyond
    · exact spread a before
    · rw [rotation_beyond le beyond, s'.mem.bounded a (le_of_lt beyond)]
      exact Memory.bounded _ a beyond

/-! ### The descent -/

omit [HeaderSpec H] in
/-- The descent of an insertion, to the leaf or the node where it ends. -/
def descent (tr : Traits K V n) (limit : ℕ) (key : Key n) (root previous : Addr) : Run H K V n Addr :=
  insertLoop tr limit key (fun it => pure it) (fun q _ => pure q) (n + 1) 0 (some root) previous

section Descent

variable [RelocatableVariant H] {key : Key n} {r q : Addr} {limit : ℕ} {s' : St H K V n}

omit [HeaderSpec H] in
theorem follows_descent {ρ : Shift} {foreign : Addr → Option (Cell H V)} (root previous : Addr) :
    Follows ρ foreign ρ.move (descent tr limit key root previous : Run H K V n Addr)
      (descent tr limit key (ρ.move root) (ρ.move previous)) :=
  follows_insertLoop tr limit key (fun a => Exec.Tracks.pure _ a) (fun a _ => Exec.Tracks.pure _ a) (n + 1) 0
    (some root) previous

omit [Variant H] [HeaderSpec H] [RelocatableVariant H] in
/-- The root and the sentinel of a closed container are kept by what keeps its addresses. -/
theorem St.Closed.keeps_ends (closed : s.Closed) (root : s.tree.root = some r) {g : Addr → Addr}
    (keeps : ∀ a < s.mem.next, g a = a) : g r = r ∧ g s.tree.dummyNode = s.tree.dummyNode := by
  refine ⟨keeps r (closed.tree r ?_), keeps _ (closed.tree _ List.mem_cons_self)⟩
  rw [Tree.pointers, root]
  exact List.mem_cons_of_mem _ (List.mem_singleton_self r)

omit [HeaderSpec H] in
/-- **The descent makes no address up.** -/
theorem St.Closed.descent (closed : s.Closed) (root : s.tree.root = some r)
    (run : descent tr limit key r s.tree.dummyNode s = .ok q s') :
    s'.Closed ∧ s.mem.next ≤ s'.mem.next := by
  have follows (ρ : Shift) (_ : ρ.past = false) (le : s.mem.next ≤ ρ.start) :
      Follows ρ (fun _ => none) ρ.move (CppArt.descent tr limit key r s.tree.dummyNode : Run H K V n Addr)
        (CppArt.descent tr limit key r s.tree.dummyNode) := by
    have keeps : ∀ a < s.mem.next, ρ.move a = a := fun a lt => Shift.move_of_lt (lt.trans_le le)
    obtain ⟨first, second⟩ := closed.keeps_ends root keeps
    have follows : Follows ρ (fun _ => none) _
      (CppArt.descent tr limit key r s.tree.dummyNode : Run H K V n Addr) _ := follows_descent r _
    rwa [first, second] at follows
  have closed' := (closed.final follows).1
  have grows := (follows ⟨s.mem.next, 0, false⟩ rfl le_rfl).grows s
  rw [run] at closed' grows
  exact ⟨closed', grows⟩

omit [HeaderSpec H] in
/-- **With the leaf in the gap**, the descent ends at the same place. -/
theorem St.Closed.position [StretchableVariant H] (closed : s.Closed) (calm : s.mem.failAt = none)
    (root : s.tree.root = some r) (enough : n ≤ Variant.posLimit H n) (cell : Cell H V)
    (run : CppArt.descent tr n key r s.tree.dummyNode s = .ok q s') :
    getInsertUniquePos tr key (s.withMem (s.mem.alloc cell))
      = .ok ((⟨s.mem.next, 1, true⟩ : Shift).move q) (s'.spread ⟨s.mem.next, 1, true⟩ fun _ => some cell) := by
  let ρ : Shift := ⟨s.mem.next, 1, true⟩
  have keeps : ∀ a < s.mem.next, ρ.move a = a := fun a lt => Shift.move_of_lt lt
  obtain ⟨first, second⟩ := closed.keeps_ends root keeps
  have follows : Follows ρ (fun _ => some cell) _
    (CppArt.descent tr (Variant.posLimit H n) key r s.tree.dummyNode : Run H K V n Addr) _ :=
    follows_descent r _
  rw [first, second] at follows
  have more : CppArt.descent tr (Variant.posLimit H n) key r s.tree.dummyNode s = .ok q s' :=
    insertLoop_extends tr enough key _ _ (n + 1) 0 (some r) s.tree.dummyNode s q s' run
  have same := follows.same s (le_refl s.mem.next) (follows.grows s)
  rw [more] at same
  have tree : (s.spread ρ fun _ => some cell).tree = s.tree := closed.rename_tree keeps
  rw [closed.alloc_eq_spread calm]
  unfold getInsertUniquePos
  rw [Exec.bind_of_ok (this_apply _), tree]
  simp only [root]
  exact same

end Descent

section Ends

variable [RelocatableVariant H] [StretchableVariant H] {r it q : Addr} {x v : V} {p : Option Addr}

/-- **At the leaf of an equal key**, nothing changes. -/
theorem insertion_found (holds : Holds tr s e M own) (closed : s.Closed) (root : s.tree.root = some r)
    (enough : n ≤ Variant.posLimit H n) (cell : s.mem.get it = some ⟨p, .leaf v⟩)
    (ends : ∀ {α : Type} (duplicate : Addr → Run H K V n α) (place : Addr → ℤ → Run H K V n α),
      insertLoop tr n (tr.keyOf x) duplicate place (n + 1) 0 (some r) s.tree.dummyNode s = duplicate it s) :
    InsertsAlike tr s x := by
  let mem₁ := s.mem.alloc ⟨none, .leaf x⟩
  have new : (s.withMem mem₁).mem.get s.mem.next = some ⟨none, .leaf x⟩ := Memory.alloc_get_next _ _
  have cell₁ : (s.withMem mem₁).mem.get it = some ⟨p, .leaf v⟩ := Memory.alloc_get_of_get cell _
  have position := closed.position holds.calm root enough ⟨none, .leaf x⟩ (ends _ _)
  rw [← closed.alloc_eq_spread holds.calm, Shift.move_of_lt (Memory.lt_next_of_get cell)] at position
  refine ⟨it, false, Equiv.refl Addr, s, s.withMem (mem₁.free s.mem.next), ?_, ?_,
    sameUpTo_refl (fun a => ?_) rfl⟩
  · unfold insertUnique
    rw [Exec.bind_of_ok (this_apply s)]
    simp only [holds.key_eq x, root]
    exact ends _ _
  · refine emplaceUnique_of_position holds.calm (holds.key_eq x) position (getType_leaf cell₁) ?_
    rw [if_neg (by simp)]
    exact Exec.bind_of_ok (delete_ok new) _
  · by_cases here : a = s.mem.next
    · rw [here, Memory.get_next]
      exact Memory.free_get_self _ _
    · exact (Memory.free_get_of_ne _ here).trans (Memory.alloc_get_of_ne _ _ here)

/-- **At a node with room**, the leaf is put in the same slot. -/
theorem insertion_opened {s' : St H K V n} {parent : Addr} {h : H} {l l' : Layout}
    (holds : Holds tr s e M own) (closed : s.Closed) (root : s.tree.root = some r)
    (enough : n ≤ Variant.posLimit H n) (calm : s'.mem.failAt = none)
    (cell : s'.mem.get q = some ⟨some parent, .inner h l⟩) (bound : branch h < n)
    (room : l.insert ((tr.keyOf x).letter (branch h)) s'.mem.next = .ok l')
    (ends : ∀ {α : Type} (duplicate : Addr → Run H K V n α) (place : Addr → ℤ → Run H K V n α),
      insertLoop tr n (tr.keyOf x) duplicate place (n + 1) 0 (some r) s.tree.dummyNode s
        = place q (branch h) s') :
    InsertsAlike tr s x := by
  let ρ : Shift := ⟨s.mem.next, 1, true⟩
  let leaf : Cell H V := ⟨none, .leaf x⟩
  obtain ⟨closed', le⟩ := closed.descent root (ends _ _)
  have position := closed.position holds.calm root enough leaf (ends _ _)
  -- the node among the cells of `emplace_unique`
  have pointers := closed'.cells q _ cell
  have node : (s'.spread ρ fun _ => some leaf).mem.get (rotation le q)
      = some (Cell.rename (rotation le) ⟨some parent, .inner h l⟩) := by
    rw [rotation_of_lt le (Memory.lt_next_of_get cell)]
    refine (@Memory.spread_get _ _ ρ _ _ _ le q).trans ?_
    rw [cell]
    exact congrArg some (Cell.rename_inj.mpr fun p inside => (rotation_of_lt le (pointers p inside)).symm)
  have first : (s'.spread ρ fun _ => some leaf).mem.get s.mem.next = some leaf :=
    @Memory.spread_get_gap _ _ ρ _ _ _ _ le (le_refl s.mem.next) (Nat.lt_succ_self s.mem.next)
  have tree : s'.tree.rename ρ.move = s'.tree.rename (rotation le) :=
    Tree.rename_inj.mpr fun p inside => (rotation_of_lt le (closed'.tree p inside)).symm
  have other : rotation le q ≠ s.mem.next := fun same =>
    (Memory.lt_next_of_get cell).ne ((rotation le).injective (same.trans (rotation_last le).symm))
  have room' : (l.rename (rotation le)).insert ((tr.keyOf x).letter (branch h)) s.mem.next
      = .ok (l'.rename (rotation le)) := by
    have renamed := Layout.rename_insert (g := rotation le) l ((tr.keyOf x).letter (branch h)) s'.mem.next
    rwa [room, rotation_last] at renamed
  refine ⟨s'.mem.next, true, rotation le, _, _, ?_, ?_, sameUpTo_placed l' x leaf closed' le cell⟩
  · unfold insertUnique
    rw [Exec.bind_of_ok (this_apply s)]
    simp only [holds.key_eq x, root]
    refine (ends _ _).trans ?_
    rw [Exec.bind_of_ok (new_ok _ calm), Exec.bind_of_ok (chunkAt_ok _ bound _)]
    exact Exec.bind_of_ok (insertChild_ok (Memory.alloc_get_of_get cell _) room) _
  · rw [rotation_last]
    rw [← rotation_of_lt le (Memory.lt_next_of_get cell)] at position
    refine emplaceUnique_of_position holds.calm (holds.key_eq x) position (getType_inner node) ?_
    rw [if_pos (layout_getType_ne _).1]
    refine Exec.bind_of_ok ?_ _
    unfold insertLeaf
    rw [Exec.bind_of_ok (setParent_ok first _)]
    have node' := (Memory.set_get_of_ne _ ⟨some (rotation le q), leaf.body⟩ other).trans node
    refine (Exec.bind_of_ok (getType_inner (s := St.withMem _ _) node') _).trans ?_
    rw [if_pos (layout_getType_ne _).2]
    refine (Exec.bind_of_ok (headerOf_ok (s := St.withMem _ _) node') _).trans ?_
    refine (Exec.bind_of_ok (chunkAt_ok _ bound _) _).trans ?_
    refine (Exec.bind_of_ok (insertChild_ok (s := St.withMem _ _) node' room') _).trans ?_
    rw [← tree]
    rfl

end Ends

variable [LawfulVariant H] [RelocatableVariant H] [StretchableVariant H]

/-- **Both insertions agree.** -/
theorem insertsAlike (admits : Admits H n) (holds : Holds tr s e M own) (closed : s.Closed) (x : V) :
    InsertsAlike tr s x := by
  rcases root : s.tree.root with _ | r
  · exact insertion_first holds root x
  have enough : n ≤ Variant.posLimit H n := LawfulVariant.le_posLimit n
  obtain ⟨rest, ctx, rep, clear, rfl⟩ := holds.path root (tr.keyOf x)
  rcases insertLoop_ends admits (le_refl n) holds.stateless holds.calm (n + 1) (by omega) ctx rep clear with
    ⟨it, v, entry, ends⟩ | ⟨q, i, s', own', ends, opened, frame, -⟩
  · obtain ⟨-, -, p, cell⟩ := rep.leaf_cell ((Table.under_zero M (tr.keyOf x)).symm ▸ entry)
    exact insertion_found holds closed root enough cell ends
  · obtain @⟨p, q, d, outerOwn, h, l, sub, -, node, missing, -, room, -, -⟩ := opened
    obtain ⟨l', run, -⟩ := Layout.insert_spec node.wf s'.mem.next room.2.1 missing
    exact insertion_opened holds closed root enough (frame.keeps.failAt.trans holds.calm) node.cell node.bound
      run ends

end Insertions

/-! ### The result -/

/-- **`insert_unique` and `emplace_unique` agree.** After any history, they return the same flag and the
same element, and leave the same nodes, fields, slots and count: only the addresses of the new nodes are
permuted. -/
theorem insertions_agree {K V : Type} {n : ℕ} (tr : Traits K V n) :
    (∀ (s : ArTree.State K V n) (m : Table Byte n V), History tr s m → s.Closed →
      ∀ x, InsertsAlike tr s x) ∧
    (n ≤ 65536 → ∀ (s : ArPrefixTree.State K V n) (m : Table Byte n V), History tr s m → s.Closed →
      ∀ x, InsertsAlike tr s x) := by
  constructor
  · intro s m history closed x
    obtain ⟨e, M, own, holds, -⟩ := history.holds trivial
    exact insertsAlike trivial holds closed x
  · intro fits s m history closed x
    obtain ⟨e, M, own, holds, -⟩ := history.holds fits
    exact insertsAlike fits holds closed x

/-- A second key with the same first byte: a leaf is split. -/
theorem insertions_agree_split :
    (∃ (s : ArTree.State (Key 2) (Key 2) 2) (it : Addr), Stored s it ⟨#v[1, 2]⟩ ∧
      InsertsAlike (Traits.identity 2) s ⟨#v[1, 3]⟩) ∧
    ∃ (s : ArPrefixTree.State (Key 2) (Key 2) 2) (it : Addr), Stored s it ⟨#v[1, 2]⟩ ∧
      InsertsAlike (Traits.identity 2) s ⟨#v[1, 3]⟩ := by
  have fits : 2 ≤ 65536 := by decide
  obtain ⟨s, it, history, closed, stored⟩ :=
    exists_single (H := DepthHeader) trivial (Traits.identity 2) ⟨#v[1, 2]⟩
  obtain ⟨s', it', history', closed', stored'⟩ :=
    exists_single (H := PrefixHeader) fits (Traits.identity 2) ⟨#v[1, 2]⟩
  exact ⟨⟨s, it, stored, (insertions_agree _).1 s _ history closed _⟩,
    s', it', stored', (insertions_agree _).2 fits s' _ history' closed' _⟩

end CppArt
