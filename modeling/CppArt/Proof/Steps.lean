/-
**What one operation does to the containers of a memory.**

`World.Sound` is the invariant of any number of containers: they share no address; if it is asked for,
every sentinel knows its root (`rooted`); and if it is asked for, every live node has an owner
(`covered`).

* `Sound.put`, `Sound.putTwo`, `Sound.remove`: one container or two change, or one goes away;
* `Sound.step`: an operation keeps the invariant, unless it loses a root or nodes where this matters;
* `Reaches.sound`: the invariant of every state that is reached.
-/

import CppArt.Proof.Members

namespace CppArt

open Table

variable {H K V : Type} {n : ℕ}

section Handing

variable [Variant H] [HeaderSpec H] {tr : Traits K V n} {mem : Memory (Cell H V)} {source : Tree K n}
  {s' : St H K V n} {e e₀ : Addr} {M : Contents n V} {own before : Set Addr}

/-! ### The two sides of a move -/

/-- What the two containers own after a move is old or new. -/
theorem Handed.within (handed : Handed tr mem source e₀ M own before s' e)
    (holds : Holds tr ⟨mem, source⟩ e₀ M own) :
    ∀ a ∈ ({s'.tree.dummyNode, e} ∪ own \ {source.dummyNode, e₀}) ∪ {source.dummyNode, e₀},
      a ∈ before ∪ own ∨ mem.next ≤ a := by
  rintro a ((sentinel | node) | left)
  · exact (handed.sentinels a sentinel).imp Or.inl id
  · exact .inl (Or.inr node.1)
  · exact .inl (Or.inr (holds.sentinels_subset left))

/-- What the two containers have changed. -/
theorem Handed.keeps_both (handed : Handed tr mem source e₀ M own before s' e) :
    Memory.Keeps mem s'.mem (before ∪ own) := by
  refine ⟨handed.keeps.next_le, handed.keeps.failAt, fun a outside lt => handed.keeps.get a ?_ lt⟩
  rintro (mine | rfl)
  · exact outside (Or.inr mine)
  · rcases handed.sentinels _ (Set.mem_insert _ _) with theirs | new
    · exact outside (Or.inl theirs)
    · exact absurd lt new.not_gt

/-- They own no address both. -/
theorem Handed.apart (handed : Handed tr mem source e₀ M own before s' e)
    (holds : Holds tr ⟨mem, source⟩ e₀ M own) (apart : Disjoint before own) :
    Disjoint ({s'.tree.dummyNode, e} ∪ own \ {source.dummyNode, e₀}) {source.dummyNode, e₀} := by
  refine Set.disjoint_left.mpr fun a inside left => ?_
  rcases inside with sentinel | node
  · have mine := holds.sentinels_subset left
    rcases handed.sentinels a sentinel with theirs | new
    · exact Set.disjoint_left.mp apart theirs mine
    · exact absurd (holds.lt_next mine) new.not_gt
  · exact node.2 left

/-- No node is lost if the target had none. -/
theorem Handed.kept (handed : Handed tr mem source e₀ M own before s' e)
    (bare : before ⊆ {s'.tree.dummyNode, e}) :
    ∀ a, a ∈ before ∪ own ∨ mem.next ≤ a → s'.mem.get a ≠ none →
      a ∈ ({s'.tree.dummyNode, e} ∪ own \ {source.dummyNode, e₀}) ∪ {source.dummyNode, e₀} := by
  rintro a ((theirs | mine) | new) live
  · exact Or.inl (Or.inl (bare theirs))
  · by_cases left : a ∈ ({source.dummyNode, e₀} : Set Addr)
    · exact Or.inr left
    · exact Or.inl (Or.inr ⟨mine, left⟩)
  · exact Or.inl (Or.inl (handed.fresh a new live))

/-- What is left of a container without nodes is the container. -/
theorem Holds.released_eq (holds : Holds tr ⟨mem, source⟩ e₀ M own) (count : source.count = 0) :
    source.released = source ∧ source.root = none := by
  have root : source.root = none := by
    rcases full : source.root with _ | r
    · rfl
    · exact absurd count (count_ne_zero holds full)
  refine ⟨?_, root⟩
  unfold Tree.released
  rw [← root, ← count]

end Handing

section Sound

variable [Variant H] [HeaderSpec H]

/-! ### The invariant -/

/-- **A container in a memory**, with a sentinel that knows the root where this is asked for. -/
def secured (tr : Traits K V n) (rooted : Prop) : Local (Cell H V) (Tree K n) (Part n V) where
  Is mem tree part := Holds tr ⟨mem, tree⟩ part.leaf part.map part.own ∧ (rooted → Tethered ⟨mem, tree⟩)
  own := Part.own
  frame is same failAt := by
    refine ⟨is.1.frame same failAt, fun asked => (is.2 asked).frame (same _ ?_)⟩
    exact is.1.sentinels_subset (Set.mem_insert _ _)
  alive is _ inside := is.1.live inside

variable {tr : Traits K V n} {rooted covered : Prop} {w w' : World H K V n} {part : ℕ → Part n V}

namespace World

/-- **The containers of a world** and what they own. -/
structure Sound (tr : Traits K V n) (rooted covered : Prop) (w : World H K V n) (part : ℕ → Part n V) :
    Prop where
  calm : w.mem.failAt = none
  parted : Parted (secured tr rooted) w.mem w.trees part
  all : covered → Covered (secured tr rooted) w.mem w.trees part
  finite : {i | w.trees i ≠ none}.Finite

namespace Sound

theorem blank : Sound tr rooted covered (World.blank : World H K V n) fun _ => Part.nothing := by
  refine ⟨rfl, ⟨fun i x named => ?_, fun i j differ => ?_⟩, fun _ a live => absurd rfl live, ?_⟩
  · cases named
  · exact Set.disjoint_left.mpr fun a inside => absurd rfl inside.1
  · exact Set.Finite.subset Set.finite_empty fun i named => absurd rfl named

theorem holds (sound : Sound tr rooted covered w part) {i : ℕ} {t : Tree K n}
    (named : w.trees i = some t) : Holds tr ⟨w.mem, t⟩ (part i).leaf (part i).map (part i).own :=
  (sound.parted.is i t named).1

theorem tethered (sound : Sound tr rooted covered w part) {i : ℕ} {t : Tree K n}
    (named : w.trees i = some t) (asked : rooted) : Tethered ⟨w.mem, t⟩ :=
  (sound.parted.is i t named).2 asked

theorem owned_eq {i : ℕ} {t : Tree K n} (named : w.trees i = some t) :
    owned (secured (H := H) tr rooted) w.trees part i = (part i).own :=
  owned_of_some named

/-- What two containers own. -/
theorem apart (sound : Sound tr rooted covered w part) {i j : ℕ} {t x : Tree K n} (differ : i ≠ j)
    (target : w.trees i = some t) (source : w.trees j = some x) :
    Disjoint (part i).own (part j).own := by
  have apart := sound.parted.apart i j differ
  rwa [owned_eq target, owned_eq source] at apart

omit [Variant H] [HeaderSpec H] in
theorem finite_update {trees : ℕ → Option (Tree K n)} (finite : {i | trees i ≠ none}.Finite) (i : ℕ)
    (x : Option (Tree K n)) : {k | Function.update trees i x k ≠ none}.Finite := by
  refine (finite.insert i).subset fun k named => ?_
  by_cases same : k = i
  · exact Or.inl same
  · rw [Set.mem_ofPred_eq, Function.update_of_ne same] at named
    exact Or.inr named

/-- **One container is made or changes.** -/
theorem put (sound : Sound tr rooted covered w part) {i : ℕ} {s : St H K V n} {e : Addr}
    {M : Contents n V} {own before : Set Addr} (holds : Holds tr s e M own)
    (tethered : rooted → Tethered s)
    (mine : owned (secured (H := H) tr rooted) w.trees part i = before)
    (keeps : Memory.Keeps w.mem s.mem before) (within : ∀ a ∈ own, a ∈ before ∨ w.mem.next ≤ a)
    (kept : covered → ∀ a, a ∈ before ∨ w.mem.next ≤ a → s.mem.get a ≠ none → a ∈ own) :
    Sound tr rooted covered (w.put i s) (Function.update part i ⟨e, M, own⟩) where
  calm := holds.calm
  parted := by
    subst mine
    exact sound.parted.put keeps within ⟨holds, tethered⟩
  all asked := by
    subst mine
    exact (sound.all asked).put keeps (kept asked)
  finite := finite_update sound.finite i _

/-- **Two containers are made or change.** -/
theorem putTwo (sound : Sound tr rooted covered w part) {i j : ℕ} {s : St H K V n} {x : Tree K n}
    {e e' : Addr} {M M' : Contents n V} {own own' before : Set Addr} (differ : i ≠ j)
    (holds : Holds tr s e M own) (holds' : Holds tr ⟨s.mem, x⟩ e' M' own')
    (tethered : rooted → Tethered s ∧ Tethered ⟨s.mem, x⟩)
    (mine : owned (secured (H := H) tr rooted) w.trees part i
      ∪ owned (secured (H := H) tr rooted) w.trees part j = before)
    (keeps : Memory.Keeps w.mem s.mem before)
    (within : ∀ a ∈ own ∪ own', a ∈ before ∨ w.mem.next ≤ a) (apart : Disjoint own own')
    (kept : covered → ∀ a, a ∈ before ∨ w.mem.next ≤ a → s.mem.get a ≠ none → a ∈ own ∪ own') :
    Sound tr rooted covered ((w.put i s).setTree j x)
      (Function.update (Function.update part i ⟨e, M, own⟩) j ⟨e', M', own'⟩) where
  calm := holds.calm
  parted := by
    subst mine
    exact sound.parted.put_two differ keeps within ⟨holds, fun asked => (tethered asked).1⟩
      ⟨holds', fun asked => (tethered asked).2⟩ apart
  all asked := by
    subst mine
    exact (sound.all asked).put_two differ keeps (kept asked)
  finite := finite_update (finite_update sound.finite i _) j _

/-- **One container goes away**, with all that it owned. -/
theorem remove (sound : Sound tr rooted covered w part) {i : ℕ} {t : Tree K n}
    {mem : Memory (Cell H V)} (target : w.trees i = some t)
    (wipes : Memory.Wipes w.mem mem (part i).own) :
    Sound tr rooted covered (w.remove i mem) part where
  calm := wipes.failAt.trans sound.calm
  parted := sound.parted.remove (owned_eq target ▸ wipes.keeps)
  all asked := by
    refine (sound.all asked).remove (owned_eq target ▸ wipes.keeps) fun a old => ?_
    rw [owned_eq target] at old
    rcases old with inside | new
    · exact wipes.gone a inside
    · exact mem.bounded a (wipes.next.trans_le new)
  finite := finite_update sound.finite i none

/-! ### Operations -/

variable {i j : ℕ} {t x : Tree K n} {s : St H K V n} {fields : H → H}

/-- **The constructor.** -/
theorem construct (sound : Sound tr rooted covered w part) (free : w.trees i = none)
    (run : init ⟨w.mem, Tree.uninitialised tr.defaultTransform⟩ = .ok ⟨⟩ s) :
    ∃ part', Sound tr rooted covered (w.put i s) part' := by
  obtain ⟨s', run', holds, keeps, renews, tethered⟩ := init_spec tr sound.calm
    (Tree.uninitialised tr.defaultTransform) rfl
  cases run.symm.trans run'
  exact ⟨_, sound.put holds (fun _ => tethered) (owned_of_none free) keeps renews.within
    fun _ => renews.kept⟩

/-- **The copy constructor.** -/
theorem copyConstruct (sound : Sound tr rooted covered w part) (faithful : Faithful fields)
    (free : w.trees i = none) (source : w.trees j = some x) (fit : Copyable fields ⟨w.mem, x⟩)
    (run : CppArt.copyConstruct x ⟨w.mem, Tree.uninitialised tr.defaultTransform⟩ = .ok ⟨⟩ s) :
    ∃ part', Sound tr rooted covered (w.put i s) part' := by
  obtain ⟨s', e, M, own, run', duplicate⟩ := copyConstruct_spec faithful (sound.holds source)
    (show (Tree.uninitialised tr.defaultTransform).keyTransform = tr.defaultTransform from rfl) fit
  cases run.symm.trans run'
  exact ⟨_, sound.put duplicate.holds (fun _ => duplicate.tethered) (owned_of_none free) duplicate.keeps
    duplicate.within fun _ => (duplicate.kept (.inr rfl)).kept⟩

/-- **The copy assignment** loses nodes where the source is empty. -/
theorem copyAssign (sound : Sound tr rooted covered w part) (faithful : Faithful fields) (differ : i ≠ j)
    (target : w.trees i = some t) (source : w.trees j = some x) (fit : Copyable fields ⟨w.mem, x⟩)
    (nodes : covered → x.count ≠ 0) (run : CppArt.copyAssign x ⟨w.mem, t⟩ = .ok ⟨⟩ s) :
    ∃ part', Sound tr rooted covered (w.put i s) part' := by
  have holds := sound.holds source
  obtain ⟨s', e, M, own, run', duplicate⟩ := copyAssign_spec faithful holds (sound.holds target)
    (sound.apart differ target source).symm fit
  cases run.symm.trans run'
  refine ⟨_, sound.put duplicate.holds (fun _ => duplicate.tethered) (owned_eq target) duplicate.keeps
    duplicate.within fun asked => (duplicate.kept (.inl fun root => ?_)).kept⟩
  exact nodes asked (count_eq_zero holds root)

/-- **The move constructor** leaves the sentinel of a source with elements as it was. -/
theorem moveConstruct (sound : Sound tr rooted covered w part) {x' : Tree K n} (free : w.trees i = none)
    (source : w.trees j = some x) (empty : rooted → x.count = 0)
    (run : CppArt.moveConstruct x ⟨w.mem, Tree.uninitialised tr.defaultTransform⟩ = .ok x' s) :
    ∃ part', Sound tr rooted covered ((w.put i s).setTree j x') part' := by
  have holds := sound.holds source
  have differ : i ≠ j := by
    rintro rfl
    rw [free] at source
    cases source
  obtain ⟨s', e, run', handed, tethered⟩ := moveConstruct_spec (V := V)
    (Tree.uninitialised tr.defaultTransform) holds
  cases run.symm.trans run'
  refine ⟨_, sound.putTwo differ handed.holds handed.left (fun asked => ⟨tethered, ?_⟩) ?_
    handed.keeps_both (handed.within holds)
    (handed.apart holds (Set.empty_disjoint _)) fun _ => handed.kept (Set.empty_subset _)⟩
  · obtain ⟨same, -⟩ := holds.released_eq (empty asked)
    rw [same]
    exact (sound.tethered source asked).frame (handed.same _ (Set.mem_insert _ _))
  · rw [owned_of_none free, owned_eq source]

/-- **The move assignment** loses the nodes of the target, and leaves the sentinels as they were where
only one side has elements. -/
theorem moveAssign (sound : Sound tr rooted covered w part) {x' : Tree K n} (differ : i ≠ j)
    (target : w.trees i = some t) (source : w.trees j = some x)
    (empty : rooted → t.count = 0 ∧ x.count = 0) (nodes : covered → t.count = 0)
    (run : CppArt.moveAssign x ⟨w.mem, t⟩ = .ok x' s) :
    ∃ part', Sound tr rooted covered ((w.put i s).setTree j x') part' := by
  have holds := sound.holds source
  have holds' := sound.holds target
  have apart := sound.apart differ target source
  obtain ⟨s', run', handed, tree, still⟩ := moveAssign_spec holds holds' apart.symm
  cases run.symm.trans run'
  refine ⟨_, sound.putTwo differ handed.holds handed.left (fun asked => ⟨?_, ?_⟩) ?_
    handed.keeps_both (handed.within holds) (handed.apart holds apart)
    fun asked => handed.kept ?_⟩
  · obtain ⟨-, none⟩ := holds.released_eq (empty asked).2
    obtain ⟨-, none'⟩ := holds'.released_eq (empty asked).1
    obtain ⟨p, leaf, sentinel⟩ := sound.tethered target asked
    unfold Tethered
    rw [still none, tree]
    refine ⟨p, leaf, sentinel.trans ?_⟩
    show some (Cell.mk p (.dummy t.root leaf)) = some ⟨p, .dummy x.root leaf⟩
    rw [none, none']
  · obtain ⟨same, -⟩ := holds.released_eq (empty asked).2
    rw [same]
    exact (sound.tethered source asked).frame (handed.same _ (Set.mem_insert _ _))
  · rw [owned_eq target, owned_eq source]
  · obtain ⟨-, none'⟩ := holds'.released_eq (nodes asked)
    have whole := holds'.whole
    rw [none'] at whole
    rw [whole.of_none.2.1, tree]

/-- **The move assignment from itself** loses all nodes. -/
theorem moveAssignSelf (sound : Sound tr rooted covered w part) {x' : Tree K n}
    (target : w.trees i = some x) (empty : rooted → x.count = 0) (nodes : covered → x.count = 0)
    (run : CppArt.moveAssign x ⟨w.mem, x⟩ = .ok x' s) :
    ∃ part', Sound tr rooted covered (w.put i ⟨s.mem, s.tree.released⟩) part' := by
  have holds := sound.holds target
  obtain ⟨mem, run', same, next, failAt⟩ := moveAssign_self_spec holds
  cases run.symm.trans run'
  refine ⟨_, sound.put (holds.bare.frame (fun a _ => same a) failAt) (fun asked => ?_) (owned_eq target)
    ⟨next.ge, failAt, fun a _ _ => same a⟩ (fun a inside => .inl (holds.sentinels_subset inside))
    fun asked a old live => ?_⟩
  · obtain ⟨still, -⟩ := holds.released_eq (empty asked)
    show Tethered ⟨mem, x.released⟩
    rw [still]
    exact (sound.tethered target asked).frame (same _)
  · obtain ⟨-, none⟩ := holds.released_eq (nodes asked)
    have whole := holds.whole
    rw [none] at whole
    rcases old with inside | new
    · rw [whole.of_none.2.1] at inside
      exact inside
    · exact absurd (mem.bounded a (next.trans_le new)) live

/-- **`swap`** exchanges everything. -/
theorem swap (sound : Sound tr rooted covered w part) (target : w.trees i = some t)
    (source : w.trees j = some x) :
    ∃ part', Sound tr rooted covered ((w.setTree i x).setTree j t) part' := by
  by_cases differ : i = j
  · subst differ
    have same : t = x := by
      rw [target, Option.some.injEq] at source
      exact source
    have still : (w.setTree i x).setTree i t = w := by
      show (⟨w.mem, Function.update (Function.update w.trees i (some x)) i (some t)⟩ : World H K V n) = w
      rw [same, Function.update_idem, ← source, Function.update_eq_self]
    rw [still]
    exact ⟨part, sound⟩
  · refine ⟨_, sound.putTwo (s := ⟨w.mem, x⟩) differ (sound.holds source) (sound.holds target)
      (fun asked => ⟨sound.tethered source asked, sound.tethered target asked⟩) ?_
      (Memory.Keeps.refl w.mem ((part j).own ∪ (part i).own)) (fun a inside => .inl inside)
      (sound.apart differ target source).symm fun _ a old live => ?_⟩
    · rw [owned_eq target, owned_eq source, Set.union_comm]
    · exact old.resolve_right fun new => live (w.mem.bounded a new)

variable [LawfulVariant H]

/-- **A legal call**, which leaves the sentinel as it was where it empties the container. -/
theorem call (sound : Sound tr rooted covered w part) (admits : Admits H n) {call : Call K V}
    {answer : Answer} (target : w.trees i = some t) (legal : call.Legal ⟨w.mem, t⟩)
    (stays : rooted → ¬ call.Empties tr ⟨w.mem, t⟩) (run : perform tr call ⟨w.mem, t⟩ = .ok answer s) :
    ∃ part', Sound tr rooted covered (w.put i s) part' := by
  have holds := sound.holds target
  obtain ⟨m', effect⟩ := legal.effect (values (part i).map)
  obtain ⟨answer', s', M, own, run', holds', moves, rfl, -⟩ := perform_spec admits holds effect
  cases run.symm.trans run'
  refine ⟨_, sound.put holds' (fun asked => ?_) (owned_eq target) moves.keeps moves.renews.within
    fun _ => moves.renews.kept⟩
  exact perform_tethered holds holds' effect run (sound.tethered target asked) (stays asked)

/-- **The invariant after one operation.** -/
theorem step (sound : Sound tr rooted covered w part) (admits : Admits H n) (faithful : Faithful fields)
    {fit : St H K V n → Prop} (copyable : ∀ s, fit s → Copyable fields s) {op : Op K V n}
    (plain : op.Default) (copies : op.CopiesFit fit w) (roots : rooted → ¬ op.LosesRoot tr w)
    (nodes : covered → ¬ op.LosesNodes w) (step : Step tr w op w') :
    ∃ part', Sound tr rooted covered w' part' := by
  cases step with
  | construct free run => exact sound.construct free run
  | constructWith => exact plain.elim
  | @copyConstruct _ _ x _ free source run =>
      exact sound.copyConstruct faithful free source (copyable _ (copies x source)) run
  | @moveConstruct _ _ x _ _ free source run =>
      refine sound.moveConstruct free source (fun asked => ?_) run
      by_contra full
      exact roots asked ⟨x, source, full⟩
  | copyAssignSelf target => exact ⟨part, sound⟩
  | @copyAssign _ _ _ x _ other target source run =>
      refine sound.copyAssign faithful other target source (copyable _ (copies other x source))
        (fun asked empty => ?_) run
      exact nodes asked ⟨other, x, source, empty⟩
  | @moveAssignSelf _ x _ _ target run =>
      refine sound.moveAssignSelf target (fun asked => ?_) (fun asked => ?_) run
      · by_contra full
        exact roots asked ⟨x, x, target, target, .inl full⟩
      · by_contra full
        exact nodes asked ⟨x, target, full⟩
  | @moveAssign _ _ t x _ _ other target source run =>
      refine sound.moveAssign other target source (fun asked => ?_) (fun asked => ?_) run
      · by_contra full
        exact roots asked ⟨t, x, target, source, not_and_or.mp full⟩
      · by_contra full
        exact nodes asked ⟨t, target, full⟩
  | swap target source => exact sound.swap target source
  | @call _ t _ _ _ target legal run =>
      exact sound.call admits target legal (fun asked empties => roots asked ⟨t, target, empties⟩) run
  | @destroy _ t _ target run =>
      obtain ⟨s', run', wipes⟩ := destroy_spec (sound.holds target)
      cases run.symm.trans run'
      exact ⟨part, sound.remove target wipes⟩

end Sound

/-- **The containers of every state that is reached** by operations that keep what is asked for. -/
theorem Reaches.sound [LawfulVariant H] (rooted covered : Prop) {fields : H → H} (admits : Admits H n)
    (faithful : Faithful fields) {fit : St H K V n → Prop} (copyable : ∀ s, fit s → Copyable fields s)
    {allowed : World H K V n → Op K V n → Prop} (plain : ∀ w op, allowed w op → op.Default)
    (copies : ∀ w op, allowed w op → op.CopiesFit fit w)
    (roots : rooted → ∀ w op, allowed w op → ¬ op.LosesRoot tr w)
    (nodes : covered → ∀ w op, allowed w op → ¬ op.LosesNodes w) (reaches : Reaches tr allowed w) :
    ∃ part, Sound tr rooted covered w part := by
  induction reaches with
  | blank => exact ⟨_, Sound.blank⟩
  | step before fine step ih =>
      obtain ⟨part, sound⟩ := ih
      exact sound.step admits faithful copyable (plain _ _ fine) (copies _ _ fine)
        (fun asked => roots asked _ _ fine) (fun asked => nodes asked _ _ fine) step

end World

end Sound

end CppArt
