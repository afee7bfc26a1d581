/-
**Node accounting.**

`new` makes one more node live and `delete` one less (`new_live`, `delete_live`), so the number of live
cells is that of the nodes constructed and not destroyed. What a container owns is its sentinel, its end
leaf and the nodes that are reached from its root (`Holds.own_eq`), so the nodes balance wherever every
live cell has an owner.

* `Reaches.balanced`: they balance as long as no nodes are lost;
* `exists_unbalanced`: and no longer, for an empty container that is copied to another one.
-/

import CppArt.Proof.Sentinel

namespace CppArt

open Table

variable {H K V : Type} {n : ℕ}

/-! ### Nodes constructed and destroyed -/

section Counting

variable {s s' : St H K V n} {a : Addr}

/-- **`new`** makes one more node. -/
theorem new_live {cell : Cell H V} (run : new cell s = .ok a s') :
    s'.mem.live.ncard = s.mem.live.ncard + 1 := by
  unfold new at run
  split at run
  · cases run
  · cases run
    exact Memory.ncard_live_alloc _ _

theorem load_none (none : s.mem.get a = none) : load a s = .error .dangling s := by
  unfold load
  rw [none]

/-- **`delete`** makes one less, and a node that is live no more cannot be deleted again. -/
theorem delete_live (run : delete a s = .ok ⟨⟩ s') :
    s'.mem.live.ncard + 1 = s.mem.live.ncard ∧ delete a s' = .error .dangling s' := by
  rcases here : s.mem.get a with _ | cell
  · have failed : delete a s = .error .dangling s := Exec.bind_of_error (load_none here) _
    rw [failed] at run
    cases run
  · cases run.symm.trans (delete_ok here)
    exact ⟨Memory.ncard_live_free here,
      Exec.bind_of_error (load_none (s := s.withMem (s.mem.free a)) (Memory.free_get_self _ _)) _⟩

end Counting

section Owned

variable [Header H] [HeaderSpec H] {tr : Traits K V n} {mem : Memory (Cell H V)} {s : St H K V n}
  {p a x e : Addr} {d : ℕ} {m M : Contents n V} {own : Set Addr}

/-! ### The nodes of a container -/

/-- **What a node owns** is what is below it. -/
theorem Rep.mem_iff_below (rep : Rep tr mem p a d m own) : x ∈ own ↔ Below mem a x := by
  induction rep with
  | @leaf p a d v cell le =>
      constructor
      · rintro rfl
        exact .refl _
      · intro below
        cases below with
        | refl => rfl
        | child cell' =>
            rw [cell] at cell'
            cases cell'
  | @inner p a d m h l sub cell wf fits bound shared describes broad bare kid apart disjoint ih =>
      constructor
      · rintro (rfl | inside)
        · exact .refl _
        · obtain ⟨b, inside⟩ := Set.mem_iUnion.mp inside
          rcases child : l.child b with _ | c
          · rw [(bare b child).2] at inside
            exact absurd inside (Set.notMem_empty x)
          · exact .child cell (by rw [Layout.find_ok wf, child]) ((ih b c child).mp inside)
      · intro below
        cases below with
        | refl => exact Or.inl rfl
        | @child _ c _ _ h' l' b cell' slot rest =>
            rw [cell] at cell'
            cases cell'
            rw [Layout.find_ok wf, Except.ok.injEq] at slot
            exact Or.inr (Set.mem_iUnion.mpr ⟨b, (ih b c slot).mpr rest⟩)

end Owned

section Balance

variable [Variant H] [HeaderSpec H] {tr : Traits K V n} {s : St H K V n} {e : Addr} {M : Contents n V}
  {own : Set Addr}

/-- **What a container owns**: its sentinel, its end leaf, and the nodes that are reached. -/
theorem Holds.own_eq (holds : Holds tr s e M own) :
    own = {s.tree.dummyNode, e} ∪ {a | Reached s a} ∧
      Disjoint {s.tree.dummyNode, e} {a | Reached s a} := by
  rcases root : s.tree.root with _ | r
  · have whole := holds.whole
    rw [root] at whole
    have none : {a | Reached s a} = ∅ := by
      refine Set.eq_empty_of_forall_notMem fun a reached => ?_
      obtain ⟨r, root', -⟩ := reached
      rw [root] at root'
      cases root'
    rw [none, Set.union_empty]
    exact ⟨whole.of_none.2.1, Set.disjoint_empty _⟩
  · have nodes : {a | Reached s a} = own \ {s.tree.dummyNode, e} := by
      ext a
      rw [(holds.rest root).mem_iff_below]
      constructor
      · rintro ⟨r', root', below⟩
        rw [root] at root'
        cases root'
        exact below
      · exact fun below => ⟨r, root, below⟩
    rw [nodes]
    exact ⟨(Set.union_sdiff_cancel holds.sentinels_subset).symm, Set.disjoint_sdiff_right⟩

theorem Holds.ncard_own (holds : Holds tr s e M own) : own.ncard = {a | Reached s a}.ncard + 2 := by
  have finite : own.Finite := by
    refine s.mem.finite_live.subset fun a inside => ?_
    exact holds.live inside
  obtain ⟨all, apart⟩ := holds.own_eq
  obtain ⟨⟨link, sentinel⟩, endLeaf⟩ := holds.sentinel
  have differ : s.tree.dummyNode ≠ e := by
    intro same
    rw [same, endLeaf] at sentinel
    cases sentinel
  have finite' : {a | Reached s a}.Finite := finite.subset (all ▸ Set.subset_union_right)
  rw [all, Set.ncard_union_eq apart (Set.toFinite _) finite', Set.ncard_pair differ, Nat.add_comm]

namespace World

variable {w w' : World H K V n} {part : ℕ → Part n V} {op : Op K V n} {rooted covered : Prop}

/-! ### The balance of a memory -/

theorem Sound.held_eq (sound : Sound tr rooted covered w part) {i : ℕ} (named : w.trees i ≠ none) :
    (owned (secured (H := H) tr rooted) w.trees part i).ncard = w.held i := by
  obtain ⟨t, here⟩ := Option.ne_none_iff_exists'.mp named
  rw [Sound.owned_eq here, (sound.holds here).ncard_own, held, here]

/-- **The nodes balance** where every live node has an owner. -/
theorem Sound.balanced (sound : Sound tr rooted True w part) : w.Balanced := by
  have all : ∀ i, i ∈ sound.finite.toFinset ↔ w.trees i ≠ none := fun i => by
    rw [Set.Finite.mem_toFinset, Set.mem_ofPred_eq]
  refine ⟨sound.finite.toFinset, all, ?_⟩
  rw [(sound.all trivial).ncard_live sound.parted all]
  exact Finset.sum_congr rfl fun i member => sound.held_eq ((all i).mp member)

/-- **They do not** where a live node has none. -/
theorem Sound.not_balanced (sound : Sound tr rooted covered w part) {a : Addr}
    (live : w.mem.get a ≠ none)
    (lost : ∀ i, a ∉ owned (secured (H := H) tr rooted) w.trees part i) : ¬ w.Balanced := by
  rintro ⟨names, all, balance⟩
  have less := sound.parted.sum_ncard_lt names live lost
  rw [balance, Finset.sum_congr rfl fun i member => sound.held_eq ((all i).mp member)] at less
  exact absurd less (lt_irrefl _)

/-! ### Operations that lose nodes -/

variable {i j : ℕ} {t x : Tree K n} {s : St H K V n}

/-- An address that a container owned and owns no more has no owner. -/
theorem Sound.lost_put (sound : Sound tr rooted covered w part) {a : Addr} {p : Part n V}
    {t' : Tree K n} (target : w.trees i = some t) (mine : a ∈ (part i).own) (gone : a ∉ p.own) (k : ℕ) :
    a ∉ owned (secured (H := H) tr rooted) (Function.update w.trees i (some t'))
      (Function.update part i p) k := by
  by_cases same : k = i
  · subst same
    rw [owned_put]
    exact gone
  · rw [owned_congr (Function.update_of_ne same _ _) (Function.update_of_ne same _ _)]
    refine Set.disjoint_left.mp (sound.parted.apart i k (Ne.symm same)) ?_
    rw [Sound.owned_eq target]
    exact mine

theorem Sound.lost_putTwo (sound : Sound tr rooted covered w part) {a : Addr} {p q : Part n V}
    {t' x' : Tree K n} (target : w.trees i = some t) (differ : i ≠ j) (mine : a ∈ (part i).own)
    (gone : a ∉ p.own) (gone' : a ∉ q.own) (k : ℕ) :
    a ∉ owned (secured (H := H) tr rooted)
      (Function.update (Function.update w.trees i (some t')) j (some x'))
      (Function.update (Function.update part i p) j q) k := by
  by_cases second : k = j
  · subst second
    rw [owned_put]
    exact gone'
  · rw [owned_congr (Function.update_of_ne second _ _) (Function.update_of_ne second _ _)]
    exact sound.lost_put target mine gone k

/-- **The copy assignment of an empty container** forgets the old sentinel. -/
theorem Sound.copyAssign_lost (sound : Sound tr False False w part) (target : w.trees i = some t)
    (empty : x.count = 0)
    (run : CppArt.copyAssign x ⟨w.mem, t⟩ = .ok ⟨⟩ s) : ¬ (w.put i s).Balanced := by
  have holds := sound.holds target
  obtain ⟨s₁, cleared, holds₁, moves, wipes⟩ := clear_spec holds
  obtain ⟨s₂, run₂, holds₂, keeps, renews, -⟩ := init_spec tr holds₁.calm s₁.tree holds₁.stateless
  have run' : CppArt.copyAssign x ⟨w.mem, t⟩ = .ok ⟨⟩ s₂ := by
    unfold CppArt.copyAssign
    refine (Exec.bind_of_ok cleared _).trans ?_
    rw [if_pos empty]
    exact run₂
  cases run.symm.trans run'
  have new : ∀ a ∈ ({s₁.mem.next, s₁.mem.next + 1} : Set Addr), w.mem.next ≤ a := fun a inside =>
    moves.keeps.next_le.trans ((renews.within a inside).resolve_left (Set.notMem_empty a))
  have mine : t.dummyNode ∈ (part i).own := holds.sentinels_subset (Set.mem_insert _ _)
  have sound' : Sound tr False False (w.put i s) _ :=
    sound.put holds₂ False.elim (Sound.owned_eq target)
      (moves.keeps.trans keeps fun a inside => absurd inside (Set.notMem_empty a))
      (fun a inside => .inr (new a inside)) False.elim
  refine sound'.not_balanced (a := t.dummyNode) ?_ (sound.lost_put target mine fun inside => ?_)
  · have live : s₁.mem.get t.dummyNode ≠ none := holds₁.live (Set.mem_insert _ _)
    have old : t.dummyNode < s₁.mem.next := (holds.lt_next mine).trans_le moves.keeps.next_le
    show s.mem.get t.dummyNode ≠ none
    rw [keeps.get _ (Set.notMem_empty _) old]
    exact live
  · exact absurd (holds.lt_next mine) (new _ inside).not_gt

/-- The root of a container with elements. -/
theorem Sound.exists_root (sound : Sound tr rooted covered w part) (target : w.trees i = some t)
    (full : t.count ≠ 0) : ∃ r, r ∈ (part i).own \ {t.dummyNode, (part i).leaf} ∧ w.mem.get r ≠ none := by
  have holds := sound.holds target
  rcases root : t.root with _ | r
  · exact absurd (holds.root_none_iff.mp root) full
  · have rep := holds.rest root
    exact ⟨r, rep.top_mem, holds.live rep.top_mem.1⟩

/-- **The move assignment** forgets the nodes of the target. -/
theorem Sound.moveAssign_lost (sound : Sound tr False False w part) {x' : Tree K n} (differ : i ≠ j)
    (target : w.trees i = some t) (source : w.trees j = some x) (full : t.count ≠ 0)
    (run : CppArt.moveAssign x ⟨w.mem, t⟩ = .ok x' s) : ¬ ((w.put i s).setTree j x').Balanced := by
  have holds := sound.holds source
  have apart := sound.apart differ target source
  obtain ⟨r, mine, live⟩ := sound.exists_root target full
  obtain ⟨s', run', handed, tree, -⟩ := moveAssign_spec holds (sound.holds target) apart.symm
  cases run.symm.trans run'
  have theirs : r ∉ (part j).own := fun inside => Set.disjoint_left.mp apart mine.1 inside
  have sound' : Sound tr False False ((w.put i s).setTree j x.released) _ :=
    sound.putTwo differ handed.holds handed.left False.elim
      (by rw [Sound.owned_eq target, Sound.owned_eq source]) handed.keeps_both (handed.within holds)
      (handed.apart holds apart) False.elim
  have dummy : s.tree.dummyNode = t.dummyNode := by rw [tree]
  refine sound'.not_balanced (a := r) ?_ (sound.lost_putTwo target differ mine.1 ?_ ?_)
  · show s.mem.get r ≠ none
    rw [handed.keeps.get r ?_ ((sound.holds target).lt_next mine.1)]
    · exact live
    · rintro (inside | rfl)
      · exact theirs inside
      · exact mine.2 (Or.inl dummy)
  · rintro (sentinel | node)
    · exact mine.2 (dummy ▸ sentinel)
    · exact theirs node.1
  · exact fun inside => theirs (holds.sentinels_subset inside)

/-- **The move assignment from itself** forgets all nodes. -/
theorem Sound.moveAssignSelf_lost (sound : Sound tr False False w part) {x' : Tree K n}
    (target : w.trees i = some x) (full : x.count ≠ 0)
    (run : CppArt.moveAssign x ⟨w.mem, x⟩ = .ok x' s) :
    ¬ (w.put i ⟨s.mem, s.tree.released⟩).Balanced := by
  have holds := sound.holds target
  obtain ⟨r, mine, live⟩ := sound.exists_root target full
  obtain ⟨mem, run', same, next, failAt⟩ := moveAssign_self_spec holds
  cases run.symm.trans run'
  have sound' : Sound tr False False (w.put i ⟨mem, x.released⟩) _ :=
    sound.put (holds.bare.frame (fun a _ => same a) failAt) False.elim (Sound.owned_eq target)
      ⟨next.ge, failAt, fun a _ _ => same a⟩ (fun a inside => .inl (holds.sentinels_subset inside))
      False.elim
  refine sound'.not_balanced (a := r) ?_ (sound.lost_put target mine.1 mine.2)
  show mem.get r ≠ none
  rw [same]
  exact live

/-- **An operation that loses nodes** leaves the balance wrong. -/
theorem Sound.lost (sound : Sound tr False False w part) (loses : op.LosesNodes w)
    (step : Step tr w op w') : ¬ w'.Balanced := by
  cases step with
  | construct | constructWith | copyConstruct | moveConstruct | swap | call | destroy =>
      exact loses.elim
  | copyAssignSelf target => exact absurd rfl loses.1
  | @copyAssign i j t x s other target source run =>
      obtain ⟨-, x₀, source', empty⟩ := loses
      cases source.symm.trans source'
      exact sound.copyAssign_lost target empty run
  | @moveAssignSelf i x x' s target run =>
      obtain ⟨x₀, target', full⟩ := loses
      cases target.symm.trans target'
      exact sound.moveAssignSelf_lost target full run
  | @moveAssign i j t x x' s other target source run =>
      obtain ⟨t₀, target', full⟩ := loses
      cases target.symm.trans target'
      exact sound.moveAssign_lost other target source full run

variable [LawfulVariant H]

/-- **Accounts along runs**: they balance as long as no nodes are lost, and no longer; where all
containers have been destroyed, no node is live. -/
theorem Reaches.balanced {fields : H → H} (admits : Admits H n) (faithful : Faithful fields)
    {fit : St H K V n → Prop} (copyable : ∀ s, fit s → Copyable fields s)
    (reaches : Reaches tr (fun w op => op.Default ∧ op.CopiesFit fit w ∧ ¬ op.LosesNodes w) w) :
    w.Balanced ∧ ((∀ i, w.trees i = none) → w.mem.live.ncard = 0) ∧
      ∀ op w', op.Default → op.CopiesFit fit w → Step tr w op w' →
        (w'.Balanced ↔ ¬ op.LosesNodes w) := by
  obtain ⟨part, sound⟩ := reaches.sound False True admits faithful copyable
    (fun _ _ fine => fine.1) (fun _ _ fine => fine.2.1) False.elim fun _ _ _ fine => fine.2.2
  refine ⟨sound.balanced, fun gone => ?_, fun op w' plain copies step => ⟨fun right loses => ?_,
    fun keeps => ?_⟩⟩
  · obtain ⟨names, all, balance⟩ := sound.balanced
    rw [balance]
    exact Finset.sum_eq_zero fun i member => absurd (gone i) ((all i).mp member)
  · have plainly : Sound tr False False w part := ⟨sound.calm, sound.parted, False.elim, sound.finite⟩
    exact plainly.lost loses step right
  · obtain ⟨part', sound'⟩ := sound.step admits faithful copyable plain copies False.elim
      (fun _ => keeps) step
    exact sound'.balanced

omit [HeaderSpec H] [LawfulVariant H] in
theorem Reaches.keepsNodes {w : World H K V n} {fit : St H K V n → Prop}
    (careful : Reaches tr (Careful tr fit) w) :
    Reaches tr (fun w op => op.Default ∧ op.CopiesFit fit w ∧ ¬ op.LosesNodes w) w :=
  careful.mono fun _ _ fine => ⟨fine.1.1, fine.1.2, fine.2.2⟩

/-- The containers at the end of the tour, and no container when these have been destroyed. -/
theorem exists_gone {fields : H → H} (tr : Traits K V n) (admits : Admits H n) (faithful : Faithful fields)
    {fit : St H K V n → Prop} (copyable : ∀ s, fit s → Copyable fields s)
    (small : ∀ s : St H K V n, (∀ a h l, IsInner s a h l → l.getType ≠ .node48) → fit s) (x y : V) :
    ∃ w w' : World H K V n, Executes tr (tour x y) w ∧
      Reaches tr (fun w op => op.Default ∧ op.CopiesFit fit w ∧ ¬ op.LosesNodes w) w ∧
      Executes tr (tour x y ++ [.destroy 0, .destroy 1, .destroy 2, .destroy 3]) w' ∧
      Reaches tr (fun w op => op.Default ∧ op.CopiesFit fit w ∧ ¬ op.LosesNodes w) w' ∧
      ∀ i, w'.trees i = none := by
  obtain ⟨w, maps, executed, careful, present, -⟩ := exists_toured tr admits faithful copyable small x y
  obtain ⟨w', executed', reaches', gone⟩ := careful.exists_destroyed admits faithful copyable (List.range 4)
    List.nodup_range executed fun i => by rw [present i, List.mem_range]
  exact ⟨w, w', executed, careful.reaches.keepsNodes, executed', reaches'.keepsNodes, gone⟩

/-- A container with one element and an empty one. -/
theorem exists_pair (admits : Admits H n) (tr : Traits K V n) (fit : St H K V n → Prop) (x : V) :
    ∃ (w : World H K V n) (t t' : Tree K n),
      Reaches tr (fun w op => op.Default ∧ op.CopiesFit fit w ∧ ¬ op.LosesNodes w) w ∧
        w.trees 0 = some t ∧ w.trees 1 = some t' ∧ t'.count = 0 := by
  obtain ⟨s₀, s, answer, e, it, M, own, run, run', holds, -⟩ := exists_one (H := H) admits tr
    Memory.blank rfl x
  obtain ⟨s', run'', holds', -⟩ := init_spec tr holds.calm (Tree.uninitialised tr.defaultTransform) rfl
  have legal : ∀ s : St H K V n, (Call.insert x : Call K V).Legal s := fun _ => trivial
  have differ : (0 : ℕ) ≠ 1 := by decide
  have free : ((World.blank.put 0 s₀).put 0 s).trees 1 = none :=
    (put_of_ne _ _ differ.symm).trans (put_of_ne _ _ differ.symm)
  have built : Reaches tr (fun w op => op.Default ∧ op.CopiesFit fit w ∧ ¬ op.LosesNodes w)
      ((World.blank.put 0 s₀).put 0 s) := by
    refine (Reaches.blank.step ?_ (.construct rfl run)).step ?_ (.call (put_self _ _ _) (legal _) run')
    · exact ⟨trivial, trivial, id⟩
    · exact ⟨trivial, trivial, id⟩
  refine ⟨((World.blank.put 0 s₀).put 0 s).put 1 s', s.tree, s'.tree, built.step ?_
    (.construct free run''), (put_of_ne _ _ differ).trans (put_self _ _ _), put_self _ _ _, ?_⟩
  · exact ⟨trivial, trivial, id⟩
  · exact count_eq_zero_of_empty holds'

/-- The empty container is copied to the other one. -/
theorem exists_unbalanced {fields : H → H} (admits : Admits H n) (faithful : Faithful fields)
    (tr : Traits K V n) (x : V) :
    ∃ w : World H K V n, Reaches tr (fun _ op => op.Default) w ∧ ¬ w.Balanced := by
  obtain ⟨w, t, t', reaches, target, source, empty⟩ := exists_pair (H := H) admits tr
    (Copyable fields) x
  have differ : (0 : ℕ) ≠ 1 := by decide
  obtain ⟨part, sound⟩ := reaches.sound False False admits faithful
    (fun _ => id) (fun _ _ fine => fine.1) (fun _ _ fine => fine.2.1) False.elim False.elim
  have holds := sound.holds source
  have root : t'.root = none := holds.root_none_iff.mpr empty
  have fit : Copyable fields (⟨w.mem, t'⟩ : St H K V n) := copyable_of_none root
  obtain ⟨s', e, M, own, run, -⟩ := copyAssign_spec faithful holds (sound.holds target)
    (sound.apart differ target source).symm fit
  have plain : (Op.copyAssign 0 1 : Op K V n).Default := trivial
  exact ⟨_, (reaches.mono fun _ _ fine => fine.1).step plain (.copyAssign differ target source run),
    sound.copyAssign_lost target empty run⟩

end World

end Balance

/-! ### The two containers -/

/-- **Node accounting** of both classes. -/
theorem node_accounting {K V : Type} {n : ℕ} (tr : Traits K V n) :
    (∀ w : World DepthHeader K V n,
      World.Reaches tr (fun w op => op.Default ∧ op.CopiesFit ArTree.FitToCopy w ∧ ¬ op.LosesNodes w) w →
      w.Balanced ∧ ((∀ i, w.trees i = none) → w.mem.live.ncard = 0) ∧
        ∀ op w', op.Default → op.CopiesFit ArTree.FitToCopy w → World.Step tr w op w' →
          (w'.Balanced ↔ ¬ op.LosesNodes w)) ∧
    ∀ w : World PrefixHeader K V n, n ≤ 65536 →
      World.Reaches tr
        (fun w op => op.Default ∧ op.CopiesFit ArPrefixTree.FitToCopy w ∧ ¬ op.LosesNodes w) w →
      w.Balanced ∧ ((∀ i, w.trees i = none) → w.mem.live.ncard = 0) ∧
        ∀ op w', op.Default → op.CopiesFit ArPrefixTree.FitToCopy w → World.Step tr w op w' →
          (w'.Balanced ↔ ¬ op.LosesNodes w) :=
  ⟨fun _ reaches => reaches.balanced trivial ArTree.faithful fun _ => ArTree.copyable_iff.mpr,
    fun _ fits reaches => reaches.balanced fits ArPrefixTree.faithful
      fun _ => ArPrefixTree.copyable_iff.mpr⟩

/-- Four containers of either class, after two elements have been copied and exchanged and an empty
container has been moved; and no node when they have been destroyed. -/
theorem node_accounting_tour :
    (∃ w w' : World DepthHeader (Key 1) (Key 1) 1,
      World.Executes (Traits.identity 1) (World.tour ⟨#v[7]⟩ ⟨#v[9]⟩) w ∧ w.Balanced ∧
        World.Executes (Traits.identity 1)
          (World.tour ⟨#v[7]⟩ ⟨#v[9]⟩ ++ [.destroy 0, .destroy 1, .destroy 2, .destroy 3]) w' ∧
        w'.mem.live.ncard = 0) ∧
    ∃ w w' : World PrefixHeader (Key 1) (Key 1) 1,
      World.Executes (Traits.identity 1) (World.tour ⟨#v[7]⟩ ⟨#v[9]⟩) w ∧ w.Balanced ∧
        World.Executes (Traits.identity 1)
          (World.tour ⟨#v[7]⟩ ⟨#v[9]⟩ ++ [.destroy 0, .destroy 1, .destroy 2, .destroy 3]) w' ∧
        w'.mem.live.ncard = 0 := by
  have fits : 1 ≤ 65536 := by decide
  obtain ⟨w, w', executed, reaches, executed', reaches', gone⟩ := World.exists_gone (H := DepthHeader)
    (Traits.identity 1) trivial ArTree.faithful (fun _ => ArTree.copyable_iff.mpr)
    (fun _ => ArTree.fit_of_ne) ⟨#v[7]⟩ ⟨#v[9]⟩
  obtain ⟨w₁, w₁', executed₁, reaches₁, executed₁', reaches₁', gone₁⟩ :=
    World.exists_gone (H := PrefixHeader) (Traits.identity 1) fits ArPrefixTree.faithful
      (fun _ => ArPrefixTree.copyable_iff.mpr) (fun _ => ArPrefixTree.fit_of_ne) ⟨#v[7]⟩ ⟨#v[9]⟩
  exact ⟨⟨w, w', executed, ((node_accounting _).1 w reaches).1, executed',
      ((node_accounting _).1 w' reaches').2.1 gone⟩,
    w₁, w₁', executed₁, ((node_accounting _).2 w₁ fits reaches₁).1, executed₁',
      ((node_accounting _).2 w₁' fits reaches₁').2.1 gone₁⟩

/-- **An empty container is copied to another one**, whose old sentinel and end leaf are lost. -/
theorem node_accounting_lost :
    (∃ w : World DepthHeader (Key 1) (Key 1) 1,
      World.Reaches (Traits.identity 1) (fun _ op => op.Default) w ∧ ¬ w.Balanced) ∧
    ∃ w : World PrefixHeader (Key 1) (Key 1) 1,
      World.Reaches (Traits.identity 1) (fun _ op => op.Default) w ∧ ¬ w.Balanced := by
  have fits : 1 ≤ 65536 := by decide
  exact ⟨World.exists_unbalanced trivial ArTree.faithful (Traits.identity 1) ⟨#v[7]⟩,
    World.exists_unbalanced fits ArPrefixTree.faithful (Traits.identity 1) ⟨#v[7]⟩⟩

end CppArt
