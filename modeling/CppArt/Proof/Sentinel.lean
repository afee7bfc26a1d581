/-
**The sentinel and the root of a container.**

The root is stored in the container and in its sentinel. An operation that takes the root away (the
erasure of the last element, `clear`, a move) writes the container only, and then `--` from `end()` follows
a pointer to a node that is gone or belongs to another container.

* `Holds.consistent`: a sentinel that knows its root leads to an element of the container;
* `perform_loose`, `Sound.loose`: an operation that loses a root leaves a sentinel that does not know it;
* `sentinel_consistency`: so the sentinels are right after an operation exactly where it loses no root.
-/

import CppArt.Proof.Family

namespace CppArt

open Table

variable {H K V : Type} {n : ℕ} [Variant H] [HeaderSpec H] {tr : Traits K V n} {s s' : St H K V n}
  {e e' r it : Addr} {M M' : Contents n V} {own own' : Set Addr} {v : V}

/-! ### A sentinel that knows the root -/

/-- The container has no root exactly when it has no element. -/
theorem Holds.root_none_iff (holds : Holds tr s e M own) : s.tree.root = none ↔ s.tree.count = 0 := by
  constructor
  · exact count_eq_zero holds
  · intro empty
    rcases root : s.tree.root with _ | r
    · rfl
    · exact absurd empty (count_ne_zero holds root)

/-- **`--` from `end()`** leads to an element, or to the end where there is none. -/
theorem Holds.consistent (holds : Holds tr s e M own) (tethered : Tethered s) : Sentinel tr s where
  tethered := tethered
  empty := holds.root_none_iff
  predecessor last atEnd := by
    obtain rfl := holds.isEnd_iff.mp atEnd
    rcases root : s.tree.root with _ | r
    · obtain ⟨⟨link, sentinel⟩, endLeaf⟩ := holds.sentinel
      obtain ⟨p, leaf, knows⟩ := tethered
      rw [sentinel, root, Option.some.injEq, Cell.mk.injEq, Body.dummy.injEq] at knows
      obtain ⟨-, rfl, -⟩ := knows
      refine ⟨last, ?_, .inr ⟨count_eq_zero holds root, rfl⟩⟩
      unfold decrement advance
      rw [Exec.bind_of_ok (parentOf_ok endLeaf)]
      simp only [deref_some, Exec.pure_bind_apply]
      rw [Exec.bind_of_ok (getType_dummy sentinel), if_pos rfl]
      show neighbourFrom .down _ (n + 2) _ s = _
      rw [neighbourFrom, Exec.bind_of_ok (load_ok sentinel)]
      rfl
    · have full : M ≠ Table.empty := by
        rintro rfl
        exact absurd (root_eq_none holds) (root ▸ Option.some_ne_none r)
      obtain ⟨w, it, v, run, entry, -⟩ := decrement_end holds full
      exact ⟨it, run, .inl ⟨v, (holds.stored_of_entry entry).1⟩⟩

/-! ### A sentinel that does not know the root -/

omit [Variant H] [HeaderSpec H] in
theorem not_tethered {p : Option Addr} {leaf : Addr} (root : s.tree.root = none)
    (sentinel : s.mem.get s.tree.dummyNode = some ⟨p, .dummy (some r) leaf⟩) : ¬ Tethered s := by
  rintro ⟨p', leaf', knows⟩
  rw [sentinel, root, Option.some.injEq, Cell.mk.injEq, Body.dummy.injEq] at knows
  exact Option.some_ne_none r knows.2.1

/-- **A container that has lost its root** and not the cell of its sentinel. -/
theorem Holds.loose (holds : Holds tr s e M own) (full : s.tree.count ≠ 0) (root : s'.tree.root = none)
    (dummy : s'.tree.dummyNode = s.tree.dummyNode)
    (same : s'.mem.get s.tree.dummyNode = s.mem.get s.tree.dummyNode) : ¬ Tethered s' := by
  rcases top : s.tree.root with _ | r
  · exact absurd (count_eq_zero holds top) full
  · obtain ⟨p, leaf, sentinel⟩ := holds.tethered top
    rw [top] at sentinel
    refine not_tethered root ((?_ : _ = _).trans sentinel)
    rw [dummy, same]

/-- The leaf of the only element is the root. -/
theorem Holds.root_of_one (holds : Holds tr s e M own) (one : s.tree.count = 1) (stored : Stored s it v) :
    s.tree.root = some it := by
  have entry := holds.stored_iff.mp stored
  obtain ⟨r, p, root, -⟩ := stored
  have rep := holds.rest root
  rw [holds.count, size, Set.ncard_eq_one] at one
  obtain ⟨w, only⟩ := one
  generalize own \ {s.tree.dummyNode, e} = rest at rep
  cases rep with
  | leaf cell le =>
      rw [single_apply] at entry
      split_ifs at entry
      rw [root, ← (Prod.mk.inj (Option.some.inj entry)).1]
  | inner cell wf fits bound shared describes broad =>
      have several := HeaderSpec.broad_nontrivial broad
      rw [only] at several
      exact absurd several Set.not_nontrivial_singleton

/-- **A call that empties a container** leaves the sentinel as it was. -/
theorem perform_loose {call : Call K V} {answer : Answer} (holds : Holds tr s e M own)
    (legal : call.Legal s) (empties : call.Empties tr s) (run : perform tr call s = .ok answer s') :
    ¬ Tethered s' := by
  cases call with
  | insert x => exact empties.elim
  | emplace x => exact empties.elim
  | erase k =>
      obtain ⟨one, it, v, stored, key⟩ := empties
      have root := holds.root_of_one one stored
      obtain ⟨-, inside, -, q, leaf⟩ := holds.entry (holds.stored_iff.mp stored)
      have accept : s.tree.keyTransform k = s.tree.keyTransform (tr.keyOfValue v) := by
        rw [holds.key_eq, holds.stateless, key]
      have erased : eraseUnique tr k s = .ok 1
          (((s.withMem (s.mem.free it)).withRoot none).withCount (s.tree.count - 1)) := by
        unfold eraseUnique
        rw [Exec.bind_of_ok (this_apply s), root]
        simp only
        rw [Exec.bind_of_ok (isLeaf_leaf leaf), if_pos rfl, Exec.bind_of_ok (leafValue_ok leaf), if_pos accept]
        rw [Exec.bind_of_ok (delete_ok leaf)]
        rfl
      cases run.symm.trans (Exec.bind_of_ok erased _)
      refine holds.loose (by omega) rfl rfl (Memory.free_get_of_ne _ fun same => ?_)
      exact (holds.rest root).top_mem.2 (Or.inl same.symm)
  | eraseAt it =>
      obtain ⟨v, stored⟩ := legal
      have one : s.tree.count = 1 := empties
      have root := holds.root_of_one one stored
      have entry := holds.stored_iff.mp stored
      obtain ⟨-, inside, -, q, leaf⟩ := holds.entry entry
      obtain ⟨result, next, -⟩ := increment_spec holds entry
      have erased : eraseAt tr it s = .ok result
          (((s.withMem (s.mem.free it)).withRoot none).withCount (s.tree.count - 1)) := by
        unfold eraseAt
        rw [Exec.bind_of_ok next, Exec.bind_of_ok (leafValue_ok leaf), Exec.bind_of_ok (this_apply s)]
        rw [if_pos root.symm, Exec.bind_of_ok (delete_ok leaf)]
        rfl
      cases run.symm.trans (Exec.bind_of_ok erased _)
      refine holds.loose (by omega) rfl rfl (Memory.free_get_of_ne _ fun same => ?_)
      exact (holds.rest root).top_mem.2 (Or.inl same.symm)
  | clear =>
      obtain ⟨s₁, cleared, holds', moves, wipes⟩ := clear_spec holds
      cases run.symm.trans (Exec.bind_of_ok cleared _)
      refine holds.loose empties (root_eq_none holds') moves.dummyNode (wipes.get _ fun inside => ?_)
      exact inside.2 (Set.mem_insert _ _)

namespace World

variable {w w' : World H K V n} {part : ℕ → Part n V} {op : Op K V n} {covered : Prop}

/-- **An operation that loses a root** leaves a sentinel that does not know it. -/
theorem Sound.loose (sound : Sound tr True covered w part) (loses : op.LosesRoot tr w)
    (step : Step tr w op w') : ∃ i t, w'.trees i = some t ∧ ¬ Tethered ⟨w'.mem, t⟩ := by
  have differ_of : ∀ {i j : ℕ} {x : Tree K n}, w.trees i = none → w.trees j = some x → j ≠ i := by
    rintro i j x free source rfl
    rw [free] at source
    cases source
  cases step with
  | construct | constructWith | copyConstruct | copyAssignSelf | copyAssign | swap | destroy =>
      exact loses.elim
  | @moveConstruct i j x x' s free source run =>
      obtain ⟨x₀, source', full⟩ := loses
      cases source.symm.trans source'
      have holds := sound.holds source
      obtain ⟨s', e, run', handed, -⟩ := moveConstruct_spec (V := V)
        (Tree.uninitialised tr.defaultTransform) holds
      cases run.symm.trans run'
      refine ⟨j, x.released, put_self _ _ _, ?_⟩
      exact holds.loose full rfl rfl (handed.same _ (Set.mem_insert _ _))
  | @moveAssignSelf i x x' s target run =>
      obtain ⟨t₀, x₀, target', source', full⟩ := loses
      cases target.symm.trans target'
      cases target.symm.trans source'
      have holds := sound.holds target
      obtain ⟨mem, run', same, -⟩ := moveAssign_self_spec holds
      cases run.symm.trans run'
      refine ⟨i, x.released, put_self _ _ _, ?_⟩
      exact holds.loose (full.elim id id) rfl rfl (same _)
  | @moveAssign i j t x x' s other target source run =>
      obtain ⟨t₀, x₀, target', source', full⟩ := loses
      cases target.symm.trans target'
      cases source.symm.trans source'
      have holds := sound.holds source
      have holds' := sound.holds target
      obtain ⟨s', run', handed, tree, still⟩ := moveAssign_spec holds holds'
        (sound.apart other target source).symm
      cases run.symm.trans run'
      by_cases empty : x.count = 0
      · have none := holds.root_none_iff.mpr empty
        have root : s.tree.root = Option.none := by
          rw [tree]
          exact none
        refine ⟨i, s.tree, (put_of_ne _ _ other).trans (put_self _ _ _), ?_⟩
        refine holds'.loose (full.resolve_right fun some => some empty) root ?_ ?_
        · rw [tree]
        · exact congrArg (fun mem => mem.get t.dummyNode) (still none)
      · refine ⟨j, x.released, put_self _ _ _, ?_⟩
        exact holds.loose empty rfl rfl (handed.same _ (Set.mem_insert _ _))
  | @call i t call answer s target legal run =>
      obtain ⟨t₀, target', empties⟩ := loses
      cases target.symm.trans target'
      exact ⟨i, s.tree, put_self _ _ _, perform_loose (sound.holds target) legal empties run⟩

theorem Sound.consistent (sound : Sound tr True covered w part) {i : ℕ} {t : Tree K n}
    (named : w.trees i = some t) : Sentinel tr ⟨w.mem, t⟩ :=
  (sound.holds named).consistent (sound.tethered named trivial)

variable [LawfulVariant H]

/-- **Sentinels along runs**: they are right as long as no root is lost, and no longer. -/
theorem Reaches.consistent {fields : H → H} (admits : Admits H n) (faithful : Faithful fields)
    {fit : St H K V n → Prop} (copyable : ∀ s, fit s → Copyable fields s)
    (reaches : Reaches tr (fun w op => op.Default ∧ op.CopiesFit fit w ∧ ¬ op.LosesRoot tr w) w) :
    (∀ i t, w.trees i = some t → Sentinel tr ⟨w.mem, t⟩) ∧
      ∀ op w', op.Default → op.CopiesFit fit w → Step tr w op w' →
        ((∀ i t, w'.trees i = some t → Sentinel tr ⟨w'.mem, t⟩) ↔ ¬ op.LosesRoot tr w) := by
  obtain ⟨part, sound⟩ := reaches.sound True False admits faithful copyable
    (fun _ _ fine => fine.1) (fun _ _ fine => fine.2.1) (fun _ _ _ fine => fine.2.2) False.elim
  refine ⟨fun i t named => sound.consistent named, fun op w' plain copies step => ⟨fun right loses => ?_,
    fun keeps i t named => ?_⟩⟩
  · obtain ⟨i, t, named, wrong⟩ := sound.loose loses step
    exact wrong (right i t named).tethered
  · obtain ⟨part', sound'⟩ := sound.step admits faithful copyable plain copies (fun _ => keeps) False.elim
      step
    exact sound'.consistent named

omit [HeaderSpec H] [LawfulVariant H] in
theorem Reaches.keepsRoots {w : World H K V n} {fit : St H K V n → Prop}
    (careful : Reaches tr (Careful tr fit) w) :
    Reaches tr (fun w op => op.Default ∧ op.CopiesFit fit w ∧ ¬ op.LosesRoot tr w) w :=
  careful.mono fun _ _ fine => ⟨fine.1.1, fine.1.2, fine.2.1⟩

/-- A container is constructed, a value is inserted, and the element is erased. -/
theorem exists_loose (admits : Admits H n) (tr : Traits K V n) (x : V) :
    ∃ (w : World H K V n) (t : Tree K n), Reaches tr (fun _ op => op.Default) w ∧
      w.trees 0 = some t ∧ ¬ Sentinel tr ⟨w.mem, t⟩ := by
  obtain ⟨s₀, s, answer, e, it, M, own, run, run', holds, stored, one⟩ := exists_one (H := H) admits tr
    Memory.blank rfl x
  obtain ⟨answer', s', M', own', run'', -⟩ := perform_spec admits holds (.erase (tr.keyOfValue x))
  have empties : (Call.erase (tr.keyOfValue x) : Call K V).Empties tr s := ⟨one, it, x, stored, rfl⟩
  have plain : ∀ call : Call K V, (Op.call 0 call : Op K V n).Default := fun _ => trivial
  have legal : ∀ s : St H K V n, (Call.insert x : Call K V).Legal s := fun _ => trivial
  have legal' : ∀ s : St H K V n, (Call.erase (tr.keyOfValue x) : Call K V).Legal s := fun _ => trivial
  refine ⟨((World.blank.put 0 s₀).put 0 s).put 0 s', s'.tree, ((Reaches.blank.step trivial
    (.construct rfl run)).step (plain _) (.call (put_self _ _ _) (legal _) run')).step (plain _)
    (.call (put_self _ _ _) (legal' _) run''), put_self _ _ _, fun right => ?_⟩
  exact perform_loose holds (legal' s) empties run'' right.tethered

end World

/-! ### The two containers -/

/-- **The sentinels are right in every state that is reached** by operations that take no root away, and
the next operation leaves them right exactly if it takes no root away. -/
theorem sentinel_consistency {K V : Type} {n : ℕ} (tr : Traits K V n) :
    (∀ w : World DepthHeader K V n,
      World.Reaches tr (fun w op => op.Default ∧ op.CopiesFit ArTree.FitToCopy w ∧ ¬ op.LosesRoot tr w) w →
      (∀ i t, w.trees i = some t → Sentinel tr ⟨w.mem, t⟩) ∧
        ∀ op w', op.Default → op.CopiesFit ArTree.FitToCopy w → World.Step tr w op w' →
          ((∀ i t, w'.trees i = some t → Sentinel tr ⟨w'.mem, t⟩) ↔ ¬ op.LosesRoot tr w)) ∧
    ∀ w : World PrefixHeader K V n, n ≤ 65536 →
      World.Reaches tr
        (fun w op => op.Default ∧ op.CopiesFit ArPrefixTree.FitToCopy w ∧ ¬ op.LosesRoot tr w) w →
      (∀ i t, w.trees i = some t → Sentinel tr ⟨w.mem, t⟩) ∧
        ∀ op w', op.Default → op.CopiesFit ArPrefixTree.FitToCopy w → World.Step tr w op w' →
          ((∀ i t, w'.trees i = some t → Sentinel tr ⟨w'.mem, t⟩) ↔ ¬ op.LosesRoot tr w) :=
  ⟨fun _ reaches => reaches.consistent trivial ArTree.faithful fun _ => ArTree.copyable_iff.mpr,
    fun _ fits reaches => reaches.consistent fits ArPrefixTree.faithful
      fun _ => ArPrefixTree.copyable_iff.mpr⟩

/-- Four containers of either class, after two elements have been copied and exchanged and an empty
container has been moved. -/
theorem sentinel_consistency_tour :
    (∃ w : World DepthHeader (Key 1) (Key 1) 1,
      World.Executes (Traits.identity 1) (World.tour ⟨#v[7]⟩ ⟨#v[9]⟩) w ∧
        (∀ i, w.trees i ≠ none ↔ i < 4) ∧
          ∀ i t, w.trees i = some t → Sentinel (Traits.identity 1) ⟨w.mem, t⟩) ∧
    ∃ w : World PrefixHeader (Key 1) (Key 1) 1,
      World.Executes (Traits.identity 1) (World.tour ⟨#v[7]⟩ ⟨#v[9]⟩) w ∧
        (∀ i, w.trees i ≠ none ↔ i < 4) ∧
          ∀ i t, w.trees i = some t → Sentinel (Traits.identity 1) ⟨w.mem, t⟩ := by
  have fits : 1 ≤ 65536 := by decide
  obtain ⟨w, _, executed, careful, -, named⟩ := World.exists_toured (H := DepthHeader) (Traits.identity 1)
    trivial ArTree.faithful (fun _ => ArTree.copyable_iff.mpr) (fun _ => ArTree.fit_of_ne) ⟨#v[7]⟩ ⟨#v[9]⟩
  obtain ⟨w', _, executed', careful', -, named'⟩ := World.exists_toured (H := PrefixHeader) (Traits.identity 1)
    fits ArPrefixTree.faithful (fun _ => ArPrefixTree.copyable_iff.mpr) (fun _ => ArPrefixTree.fit_of_ne)
    ⟨#v[7]⟩ ⟨#v[9]⟩
  exact ⟨⟨w, executed, named, ((sentinel_consistency _).1 w careful.reaches.keepsRoots).1⟩,
    w', executed', named', ((sentinel_consistency _).2 w' fits careful'.reaches.keepsRoots).1⟩

/-- **The only element is erased**: the sentinel keeps a root that has been deleted. -/
theorem sentinel_consistency_erased :
    (∃ (w : World DepthHeader (Key 1) (Key 1) 1) (t : Tree (Key 1) 1),
      World.Reaches (Traits.identity 1) (fun _ op => op.Default) w ∧ w.trees 0 = some t ∧
        ¬ Sentinel (Traits.identity 1) ⟨w.mem, t⟩) ∧
    ∃ (w : World PrefixHeader (Key 1) (Key 1) 1) (t : Tree (Key 1) 1),
      World.Reaches (Traits.identity 1) (fun _ op => op.Default) w ∧ w.trees 0 = some t ∧
        ¬ Sentinel (Traits.identity 1) ⟨w.mem, t⟩ := by
  have fits : 1 ≤ 65536 := by decide
  exact ⟨World.exists_loose trivial (Traits.identity 1) ⟨#v[7]⟩,
    World.exists_loose fits (Traits.identity 1) ⟨#v[7]⟩⟩

end CppArt
