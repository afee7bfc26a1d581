/-
**Any number of containers refine a family of maps.**

The invariant of the containers (`World.Sound`) says which map each container represents; `World.mapsOf`
collects these. A step changes the family as `Op.Denotes` says and hands the elements over as `Op.home`
says (`Moved`).

* `Sound.moved`: one lemma for all operations, from the specification of each;
* `Sound.exists_step`: an operation that applies does not fail;
* `Traced.standsFor`, `Following.entry`: the invariant along the runs;
* `exists_tour`: a run through the operations;
* `family_refined`, `iterators_follow`: for the two classes.
-/

import CppArt.Model.Family
import CppArt.Proof.Copying
import CppArt.Proof.Links
import CppArt.Proof.Steps
import CppArt.Proof.ValueCompare

namespace CppArt

open Table

variable {H K V : Type} {n : ℕ}

/-- **The containers stand for these maps**: each answers as its map does, and an operation that may be
called does not fail and changes the maps as it should. -/
structure World.StandsFor [Variant H] (tr : Traits K V n) (fit : St H K V n → Prop) (w : World H K V n)
    (maps : Family n V) : Prop where
  named : ∀ i, maps i = none ↔ w.trees i = none
  refines : ∀ i t m, w.trees i = some t → maps i = some m → Refines tr ⟨w.mem, t⟩ m
  returns : ∀ op : Op K V n, op.Default → op.CopiesFit fit w → op.Applies w → ∃ w', Step tr w op w'
  denotes : ∀ (op : Op K V n) w', op.Default → op.CopiesFit fit w → Step tr w op w' →
    ∃ maps', op.Denotes tr w maps maps'

namespace World

section Maps

variable {w : World H K V n} {part : ℕ → Part n V} {i j : ℕ}

/-- The maps that the containers represent. -/
def mapsOf (w : World H K V n) (part : ℕ → Part n V) : Family n V :=
  fun i => (w.trees i).map fun _ => values (part i).map

theorem mapsOf_some {t : Tree K n} (named : w.trees i = some t) :
    mapsOf w part i = some (values (part i).map) := by
  rw [mapsOf, named, Option.map_some]

theorem mapsOf_eq_none : mapsOf w part i = none ↔ w.trees i = none := Option.map_eq_none_iff

theorem mapsOf_put (s : St H K V n) (p : Part n V) :
    mapsOf (w.put i s) (Function.update part i p)
      = Function.update (mapsOf w part) i (some (values p.map)) := by
  funext k
  by_cases same : k = i
  · subst same
    rw [mapsOf_some (put_self w k s), Function.update_self, Function.update_self]
  · rw [mapsOf, put_of_ne w s same, Function.update_of_ne same, Function.update_of_ne same, mapsOf]

theorem mapsOf_putTwo (s : St H K V n) (x : Tree K n) (p q : Part n V) :
    mapsOf ((w.put i s).setTree j x) (Function.update (Function.update part i p) j q)
      = Function.update (Function.update (mapsOf w part) i (some (values p.map))) j
          (some (values q.map)) := by
  rw [setTree, mapsOf_put, mapsOf_put]

theorem mapsOf_remove (mem : Memory (Cell H V)) :
    mapsOf (w.remove i mem) part = Function.update (mapsOf w part) i none := by
  funext k
  by_cases same : k = i
  · subst same
    rw [mapsOf_eq_none.mpr (Function.update_self _ _ _), Function.update_self]
  · have other : (w.remove i mem).trees k = w.trees k := Function.update_of_ne same _ _
    rw [Function.update_of_ne same, mapsOf, mapsOf, other]

end Maps

section Steps

variable [Variant H] [HeaderSpec H] {tr : Traits K V n} {w w' : World H K V n} {part : ℕ → Part n V}

/-! ### One operation -/

/-- **What an operation has done** to the maps and to the elements. -/
structure Moved (tr : Traits K V n) (w : World H K V n) (part : ℕ → Part n V) (op : Op K V n)
    (w' : World H K V n) (part' : ℕ → Part n V) : Prop where
  sound : Sound tr False False w' part'
  denotes : op.Denotes tr w (mapsOf w part) (mapsOf w' part')
  entries : ∀ k t it v, w.trees k = some t → (part k).map (tr.keyOf v) = some (it, v) →
    ¬ op.Takes tr k it v → w'.trees (op.home k) ≠ none ∧
      (part' (op.home k)).map (tr.keyOf v) = some (it, v)

omit [Variant H] [HeaderSpec H] in
theorem ne_of_free {i k : ℕ} {t : Tree K n} (free : w.trees i = none) (named : w.trees k = some t) :
    k ≠ i := by
  rintro rfl
  rw [free] at named
  cases named

omit [Variant H] [HeaderSpec H] in
/-- The elements of a container that is not named by the operation. -/
theorem entry_other {i k : ℕ} {s : St H K V n} {p : Part n V} {x : Key n} {entry : Addr × V}
    (named : w.trees k ≠ none) (here : (part k).map x = some entry) (other : k ≠ i) :
    (w.put i s).trees k ≠ none ∧ (Function.update part i p k).map x = some entry := by
  rw [put_of_ne w s other, Function.update_of_ne other]
  exact ⟨named, here⟩

omit [Variant H] [HeaderSpec H] in
/-- The elements of a container that is described anew. -/
theorem entry_self {i : ℕ} {s : St H K V n} {p : Part n V} {x : Key n} {entry : Addr × V}
    (here : p.map x = some entry) :
    (w.put i s).trees i ≠ none ∧ (Function.update part i p i).map x = some entry := by
  rw [put_self w i s, Function.update_self]
  exact ⟨Option.some_ne_none _, here⟩

section Each

variable {i j : ℕ} {t x x' : Tree K n} {s : St H K V n} {fields : H → H}

/-- **The constructor.** -/
theorem Sound.moved_construct (sound : Sound tr False False w part) (free : w.trees i = none)
    (run : init ⟨w.mem, Tree.uninitialised tr.defaultTransform⟩ = .ok ⟨⟩ s) :
    ∃ part', Moved tr w part (.construct i) (w.put i s) part' := by
  obtain ⟨s', run', holds, keeps, renews, -⟩ := init_spec tr sound.calm
    (Tree.uninitialised tr.defaultTransform) rfl
  cases run.symm.trans run'
  refine ⟨_, sound.put holds False.elim (owned_of_none free) keeps renews.within False.elim, ?_, ?_⟩
  · rw [mapsOf_put]
    exact .construct i
  · intro k t it v named here leaves
    exact entry_other (k := k) (named ▸ Option.some_ne_none t) here (ne_of_free free named)

/-- **The copy constructor.** -/
theorem Sound.moved_copyConstruct (sound : Sound tr False False w part) (faithful : Faithful fields)
    (free : w.trees i = none) (source : w.trees j = some x) (fit : Copyable fields ⟨w.mem, x⟩)
    (run : CppArt.copyConstruct x ⟨w.mem, Tree.uninitialised tr.defaultTransform⟩ = .ok ⟨⟩ s) :
    ∃ part', Moved tr w part (.copyConstruct i j) (w.put i s) part' := by
  obtain ⟨s', e, M, own, run', duplicate⟩ := copyConstruct_spec faithful (sound.holds source)
    (show (Tree.uninitialised tr.defaultTransform).keyTransform = tr.defaultTransform from rfl) fit
  cases run.symm.trans run'
  refine ⟨_, sound.put duplicate.holds False.elim (owned_of_none free) duplicate.keeps
    duplicate.within False.elim, ?_, ?_⟩
  · rw [mapsOf_put, duplicate.same, ← mapsOf_some source]
    exact .copyConstruct i j
  · intro k t it v named here leaves
    exact entry_other (k := k) (named ▸ Option.some_ne_none t) here (ne_of_free free named)

/-- **The copy assignment.** -/
theorem Sound.moved_copyAssign (sound : Sound tr False False w part) (faithful : Faithful fields)
    (differ : i ≠ j) (target : w.trees i = some t) (source : w.trees j = some x)
    (fit : Copyable fields ⟨w.mem, x⟩) (run : CppArt.copyAssign x ⟨w.mem, t⟩ = .ok ⟨⟩ s) :
    ∃ part', Moved tr w part (.copyAssign i j) (w.put i s) part' := by
  obtain ⟨s', e, M, own, run', duplicate⟩ := copyAssign_spec faithful (sound.holds source)
    (sound.holds target) (sound.apart differ target source).symm fit
  cases run.symm.trans run'
  refine ⟨_, sound.put duplicate.holds False.elim (Sound.owned_eq target) duplicate.keeps
    duplicate.within False.elim, ?_, ?_⟩
  · rw [mapsOf_put, duplicate.same, ← mapsOf_some source]
    exact .copyAssign i j
  · intro k t it v named here leaves
    exact entry_other (k := k) (named ▸ Option.some_ne_none t) here fun same => leaves ⟨same, differ⟩

/-- **The copy assignment from itself.** -/
theorem Sound.moved_copyAssignSelf (sound : Sound tr False False w part) (i : ℕ) :
    ∃ part', Moved tr w part (.copyAssign i i) w part' := by
  refine ⟨part, sound, ?_, ?_⟩
  · have still : Op.Denotes tr w (mapsOf w part) (.copyAssign i i) _ := .copyAssign i i
    rwa [Function.update_eq_self] at still
  · intro k t it v named here leaves
    exact ⟨named ▸ Option.some_ne_none t, here⟩

omit [Variant H] [HeaderSpec H] in
/-- **The elements after a move**: the container `i` has those of `j`. -/
theorem entry_moved {k : ℕ} {s : St H K V n} {p q : Part n V} {key : Key n} {entry : Addr × V}
    (named : w.trees k ≠ none) (here : (part k).map key = some entry) (differ : i ≠ j) (other : k ≠ i)
    (handed : p.map = (part j).map) :
    ((w.put i s).setTree j x').trees (if k = j then i else k) ≠ none ∧
      (Function.update (Function.update part i p) j q (if k = j then i else k)).map key
        = some entry := by
  by_cases mine : k = j
  · subst mine
    rw [if_pos rfl]
    refine entry_other (k := i) ?_ ?_ differ
    · rw [put_self w i s]
      exact Option.some_ne_none _
    · rw [Function.update_self, handed]
      exact here
  · rw [if_neg mine]
    obtain ⟨named', here'⟩ := entry_other (s := s) (p := p) named here other
    exact entry_other named' here' mine

/-- **The move constructor.** -/
theorem Sound.moved_moveConstruct (sound : Sound tr False False w part) (free : w.trees i = none)
    (source : w.trees j = some x)
    (run : CppArt.moveConstruct x ⟨w.mem, Tree.uninitialised tr.defaultTransform⟩ = .ok x' s) :
    ∃ part', Moved tr w part (.moveConstruct i j) ((w.put i s).setTree j x') part' := by
  have holds := sound.holds source
  have differ : i ≠ j := by
    rintro rfl
    rw [free] at source
    cases source
  obtain ⟨s', e, run', handed, -⟩ := moveConstruct_spec (V := V)
    (Tree.uninitialised tr.defaultTransform) holds
  cases run.symm.trans run'
  refine ⟨_, sound.putTwo differ handed.holds handed.left False.elim ?_ handed.keeps_both
    (handed.within holds) (handed.apart holds (Set.empty_disjoint _)) False.elim, ?_, ?_⟩
  · rw [owned_of_none free, Sound.owned_eq source]
  · rw [mapsOf_putTwo, ← mapsOf_some source]
    exact .moveConstruct i j
  · intro k t it v named here leaves
    exact entry_moved (named ▸ Option.some_ne_none t) here differ (ne_of_free free named) rfl

/-- **The move assignment.** -/
theorem Sound.moved_moveAssign (sound : Sound tr False False w part) (differ : i ≠ j)
    (target : w.trees i = some t) (source : w.trees j = some x)
    (run : CppArt.moveAssign x ⟨w.mem, t⟩ = .ok x' s) :
    ∃ part', Moved tr w part (.moveAssign i j) ((w.put i s).setTree j x') part' := by
  have holds := sound.holds source
  have apart := sound.apart differ target source
  obtain ⟨s', run', handed, -⟩ := moveAssign_spec holds (sound.holds target) apart.symm
  cases run.symm.trans run'
  refine ⟨_, sound.putTwo differ handed.holds handed.left False.elim ?_ handed.keeps_both
    (handed.within holds) (handed.apart holds apart) False.elim, ?_, ?_⟩
  · rw [Sound.owned_eq target, Sound.owned_eq source]
  · rw [mapsOf_putTwo, ← mapsOf_some source]
    exact .moveAssign i j
  · intro k t it v named here leaves
    exact entry_moved (named ▸ Option.some_ne_none t) here differ leaves rfl

/-- **The move assignment from itself** leaves an empty container. -/
theorem Sound.moved_moveAssignSelf (sound : Sound tr False False w part) (target : w.trees i = some x)
    (run : CppArt.moveAssign x ⟨w.mem, x⟩ = .ok x' s) :
    ∃ part', Moved tr w part (.moveAssign i i) (w.put i ⟨s.mem, s.tree.released⟩) part' := by
  have holds := sound.holds target
  obtain ⟨mem, run', same, next, failAt⟩ := moveAssign_self_spec holds
  cases run.symm.trans run'
  refine ⟨_, sound.put (holds.bare.frame (fun a _ => same a) failAt) False.elim (Sound.owned_eq target)
    ⟨next.ge, failAt, fun a _ _ => same a⟩ (fun a inside => .inl (holds.sentinels_subset inside))
    False.elim, ?_, ?_⟩
  · rw [mapsOf_put, values_empty]
    have twice : Op.Denotes tr w (mapsOf w part) (.moveAssign i i) _ := .moveAssign i i
    rwa [Function.update_idem] at twice
  · intro k t it v named here leaves
    have home : (Op.moveAssign i i : Op K V n).home k = k := if_neg leaves
    rw [home]
    exact entry_other (named ▸ Option.some_ne_none t) here leaves

/-- **`swap`.** -/
theorem Sound.moved_swap (sound : Sound tr False False w part) (target : w.trees i = some t)
    (source : w.trees j = some x) :
    ∃ part', Moved tr w part (.swap i j) ((w.setTree i x).setTree j t) part' := by
  by_cases differ : i = j
  · subst differ
    have still : (w.setTree i x).setTree i t = w := by
      show (⟨w.mem, Function.update (Function.update w.trees i (some x)) i (some t)⟩ : World H K V n) = w
      rw [Function.update_idem, ← target, Function.update_eq_self]
    rw [still]
    refine ⟨part, sound, ?_, ?_⟩
    · have twice : Op.Denotes tr w (mapsOf w part) (.swap i i) _ := .swap i i
      rwa [Function.update_idem, Function.update_eq_self] at twice
    · intro k t it v named here leaves
      have home : (Op.swap i i : Op K V n).home k = k := by
        show (if k = i then i else if k = i then i else k) = k
        split <;> simp_all
      rw [home]
      exact ⟨named ▸ Option.some_ne_none t, here⟩
  · refine ⟨_, sound.putTwo (s := ⟨w.mem, x⟩) differ (sound.holds source) (sound.holds target)
      (fun asked => ⟨asked.elim, asked.elim⟩) ?_
      (Memory.Keeps.refl w.mem ((part j).own ∪ (part i).own)) (fun a inside => .inl inside)
      (sound.apart differ target source).symm False.elim, ?_, ?_⟩
    · rw [Sound.owned_eq target, Sound.owned_eq source, Set.union_comm]
    · show Op.Denotes tr w _ _ (mapsOf ((w.put i ⟨w.mem, x⟩).setTree j t) _)
      rw [mapsOf_putTwo, ← mapsOf_some source, ← mapsOf_some target]
      exact .swap i j
    · intro k z it v named here leaves
      have present : w.trees k ≠ none := named ▸ Option.some_ne_none z
      show ((w.put i ⟨w.mem, x⟩).put j ⟨w.mem, t⟩).trees (if k = i then j else if k = j then i else k)
        ≠ none ∧ _
      by_cases first : k = i
      · subst first
        rw [show (Op.swap k j : Op K V n).home k = j from if_pos rfl, if_pos rfl]
        exact entry_self here
      · have home : (Op.swap i j : Op K V n).home k = if k = j then i else k := if_neg first
        rw [if_neg first, home]
        exact entry_moved present here differ first rfl

variable [LawfulVariant H]

/-- **A legal call.** -/
theorem Sound.moved_call (sound : Sound tr False False w part) (admits : Admits H n) {call : Call K V}
    {answer : Answer} (target : w.trees i = some t) (legal : call.Legal ⟨w.mem, t⟩)
    (run : perform tr call ⟨w.mem, t⟩ = .ok answer s) :
    ∃ part', Moved tr w part (.call i call) (w.put i s) part' := by
  have holds := sound.holds target
  obtain ⟨m', effect⟩ := legal.effect (values (part i).map)
  obtain ⟨answer', s', M, own, run', holds', moves, same, -, stays⟩ := perform_spec admits holds effect
  cases run.symm.trans run'
  refine ⟨_, sound.put holds' False.elim (Sound.owned_eq target) moves.keeps moves.renews.within
    False.elim, ?_, ?_⟩
  · rw [mapsOf_put, same]
    exact .call target (mapsOf_some target) effect
  · intro k z it v named here leaves
    by_cases mine : k = i
    · subst mine
      have spares : call.Spares tr it v := by
        by_contra taken
        exact leaves ⟨rfl, taken⟩
      exact entry_self (stays _ _ here (spares.stays holds here effect))
    · exact entry_other (named ▸ Option.some_ne_none z) here mine

/-- **What every operation does** to the maps and to the elements. -/
theorem Sound.moved (sound : Sound tr False False w part) (admits : Admits H n)
    (faithful : Faithful fields) {fit : St H K V n → Prop} (copyable : ∀ s, fit s → Copyable fields s)
    {op : Op K V n} (plain : op.Default) (copies : op.CopiesFit fit w) (step : Step tr w op w') :
    ∃ part', Moved tr w part op w' part' := by
  cases step with
  | construct free run => exact sound.moved_construct free run
  | constructWith => exact plain.elim
  | @copyConstruct _ _ x _ free source run =>
      exact sound.moved_copyConstruct faithful free source (copyable _ (copies x source)) run
  | moveConstruct free source run => exact sound.moved_moveConstruct free source run
  | @copyAssignSelf i => exact sound.moved_copyAssignSelf i
  | @copyAssign _ _ _ x _ other target source run =>
      exact sound.moved_copyAssign faithful other target source (copyable _ (copies other x source)) run
  | moveAssignSelf target run => exact sound.moved_moveAssignSelf target run
  | moveAssign other target source run => exact sound.moved_moveAssign other target source run
  | swap target source => exact sound.moved_swap target source
  | call target legal run => exact sound.moved_call admits target legal run
  | @destroy i t _ target run =>
      obtain ⟨s', run', wipes⟩ := destroy_spec (sound.holds target)
      cases run.symm.trans run'
      refine ⟨part, sound.remove target wipes, ?_, fun k z it v named here leaves => ⟨?_, here⟩⟩
      · rw [mapsOf_remove]
        exact .destroy i
      · show Function.update w.trees i none k ≠ none
        rw [Function.update_of_ne leaves, named]
        exact Option.some_ne_none z

/-- **An operation that applies** does not fail. -/
theorem Sound.exists_step (sound : Sound tr False False w part) (admits : Admits H n)
    (faithful : Faithful fields) {fit : St H K V n → Prop} (copyable : ∀ s, fit s → Copyable fields s)
    {op : Op K V n} (plain : op.Default) (copies : op.CopiesFit fit w) (applies : op.Applies w) :
    ∃ w', Step tr w op w' := by
  cases op with
  | construct i =>
      obtain ⟨s, run, -⟩ := init_spec tr sound.calm (Tree.uninitialised tr.defaultTransform) rfl
      exact ⟨_, .construct applies run⟩
  | constructWith i keyTransform => exact plain.elim
  | copyConstruct i j =>
      obtain ⟨x, source⟩ := Option.ne_none_iff_exists'.mp applies.2
      obtain ⟨s, e, M, own, run, -⟩ := copyConstruct_spec faithful (sound.holds source)
        (show (Tree.uninitialised tr.defaultTransform).keyTransform = tr.defaultTransform from rfl)
        (copyable _ (copies x source))
      exact ⟨_, .copyConstruct applies.1 source run⟩
  | moveConstruct i j =>
      obtain ⟨x, source⟩ := Option.ne_none_iff_exists'.mp applies.2
      obtain ⟨s, e, run, -⟩ := moveConstruct_spec (V := V) (Tree.uninitialised tr.defaultTransform)
        (sound.holds source)
      exact ⟨_, .moveConstruct applies.1 source run⟩
  | copyAssign i j =>
      obtain ⟨t, target⟩ := Option.ne_none_iff_exists'.mp applies.1
      obtain ⟨x, source⟩ := Option.ne_none_iff_exists'.mp applies.2
      by_cases differ : i = j
      · subst differ
        exact ⟨w, .copyAssignSelf target⟩
      · obtain ⟨s, e, M, own, run, -⟩ := copyAssign_spec faithful (sound.holds source)
          (sound.holds target) (sound.apart differ target source).symm
          (copyable _ (copies differ x source))
        exact ⟨_, .copyAssign differ target source run⟩
  | moveAssign i j =>
      obtain ⟨t, target⟩ := Option.ne_none_iff_exists'.mp applies.1
      obtain ⟨x, source⟩ := Option.ne_none_iff_exists'.mp applies.2
      by_cases differ : i = j
      · subst differ
        obtain ⟨mem, run, -⟩ := moveAssign_self_spec (sound.holds target)
        exact ⟨_, .moveAssignSelf target run⟩
      · obtain ⟨s, run, -⟩ := moveAssign_spec (sound.holds source) (sound.holds target)
          (sound.apart differ target source).symm
        exact ⟨_, .moveAssign differ target source run⟩
  | swap i j =>
      obtain ⟨t, target⟩ := Option.ne_none_iff_exists'.mp applies.1
      obtain ⟨x, source⟩ := Option.ne_none_iff_exists'.mp applies.2
      exact ⟨_, .swap target source⟩
  | call i c =>
      obtain ⟨t, target, legal⟩ := applies
      obtain ⟨m', effect⟩ := legal.effect (values (part i).map)
      obtain ⟨answer, s, M, own, run, -⟩ := perform_spec admits (sound.holds target) effect
      exact ⟨_, .call target legal run⟩
  | destroy i =>
      obtain ⟨t, target⟩ := Option.ne_none_iff_exists'.mp applies
      obtain ⟨s, run, -⟩ := destroy_spec (sound.holds target)
      exact ⟨_, .destroy target run⟩

end Each

/-! ### Runs -/

omit [Variant H] [HeaderSpec H] in
/-- What a call does to a map is determined. -/
theorem effect_unique {s : St H K V n} {m m₁ m₂ : Table Byte n V} {call : Call K V}
    (one : call.Effect tr s m m₁) (two : call.Effect tr s m m₂) : m₁ = m₂ := by
  cases one with
  | insert x => cases two with | insert => rfl
  | emplace x => cases two with | emplace => rfl
  | erase k => cases two with | erase => rfl
  | eraseAt it v stored =>
      cases two with
      | eraseAt _ v' stored' => rw [stored.value_eq stored']
  | clear => cases two with | clear => rfl

omit [Variant H] [HeaderSpec H] in
/-- The family after an operation is determined. -/
theorem denotes_unique {maps maps₁ maps₂ : Family n V} {op : Op K V n}
    (one : op.Denotes tr w maps maps₁) (two : op.Denotes tr w maps maps₂) : maps₁ = maps₂ := by
  cases one with
  | construct => cases two with | construct => rfl
  | copyConstruct => cases two with | copyConstruct => rfl
  | moveConstruct => cases two with | moveConstruct => rfl
  | copyAssign => cases two with | copyAssign => rfl
  | moveAssign => cases two with | moveAssign => rfl
  | swap => cases two with | swap => rfl
  | destroy => cases two with | destroy => rfl
  | call target map effect =>
      cases two with
      | call target' map' effect' =>
          rw [target, Option.some.injEq] at target'
          rw [map, Option.some.injEq] at map'
          subst target' map'
          rw [effect_unique effect effect']

section Runs

variable [LawfulVariant H] {maps : Family n V} {fields : H → H} {fit : St H K V n → Prop}

/-- **What the containers of a state stand for.** -/
theorem Sound.standsFor (sound : Sound tr False False w part) (admits : Admits H n)
    (faithful : Faithful fields) (copyable : ∀ s, fit s → Copyable fields s) :
    StandsFor tr fit w (mapsOf w part) where
  named i := mapsOf_eq_none
  refines i t m target map := by
    rw [mapsOf_some target, Option.some.injEq] at map
    subst map
    exact (sound.holds target).refines admits
  returns op plain copies applies := sound.exists_step admits faithful copyable plain copies applies
  denotes op w' plain copies step := by
    obtain ⟨part', moved⟩ := sound.moved admits faithful copyable plain copies step
    exact ⟨_, moved.denotes⟩

/-- **The invariant along a run.** -/
theorem Traced.sound (admits : Admits H n) (faithful : Faithful fields)
    (copyable : ∀ s, fit s → Copyable fields s) (traced : Traced tr (Allowed fit) w maps) :
    ∃ part, Sound tr False False w part ∧ maps = mapsOf w part := by
  induction traced with
  | blank => exact ⟨_, Sound.blank, rfl⟩
  | step before fine denotes step ih =>
      obtain ⟨part, sound, rfl⟩ := ih
      obtain ⟨part', moved⟩ := sound.moved admits faithful copyable fine.1 fine.2 step
      exact ⟨part', moved.sound, denotes_unique denotes moved.denotes⟩

/-- **In every state that is reached** the containers stand for the maps of the run. -/
theorem Traced.standsFor (admits : Admits H n) (faithful : Faithful fields)
    (copyable : ∀ s, fit s → Copyable fields s) (traced : Traced tr (Allowed fit) w maps) :
    StandsFor tr fit w maps := by
  obtain ⟨part, sound, rfl⟩ := traced.sound admits faithful copyable
  exact sound.standsFor admits faithful copyable

/-- An element that is never taken away keeps its leaf. -/
theorem Following.entry (admits : Admits H n) (faithful : Faithful fields)
    (copyable : ∀ s, fit s → Copyable fields s) {k k' : ℕ} {t : Tree K n} {it : Addr} {v : V}
    (sound : Sound tr False False w part) (named : w.trees k = some t)
    (entry : (part k).map (tr.keyOf v) = some (it, v))
    (following : Following tr (Allowed fit) it v w k w' k') :
    ∃ part' t', Sound tr False False w' part' ∧ w'.trees k' = some t' ∧
      (part' k').map (tr.keyOf v) = some (it, v) := by
  induction following with
  | refl => exact ⟨part, t, sound, named, entry⟩
  | step before fine leaves step ih =>
      obtain ⟨part₁, t₁, sound₁, named₁, entry₁⟩ := ih
      obtain ⟨part₂, moved⟩ := sound₁.moved admits faithful copyable fine.1 fine.2 step
      obtain ⟨present, entry₂⟩ := moved.entries _ _ it v named₁ entry₁ leaves
      obtain ⟨t₂, named₂⟩ := Option.ne_none_iff_exists'.mp present
      exact ⟨part₂, t₂, moved.sound, named₂, entry₂⟩

/-- **Iterators follow their elements.** -/
theorem Reaches.follow (admits : Admits H n) (faithful : Faithful fields)
    (copyable : ∀ s, fit s → Copyable fields s) (reaches : Reaches tr (Allowed fit) w) {k k' : ℕ}
    {t : Tree K n} {it : Addr} {v : V} (named : w.trees k = some t) (stored : Stored ⟨w.mem, t⟩ it v)
    (following : Following tr (Allowed fit) it v w k w' k') :
    ∃ t' m', w'.trees k' = some t' ∧ Represents tr ⟨w'.mem, t'⟩ m' ∧
      Steady tr ⟨w'.mem, t'⟩ m' it v := by
  obtain ⟨part, sound⟩ := reaches.sound False False admits faithful copyable (fun _ _ fine => fine.1)
    (fun _ _ fine => fine.2) False.elim False.elim
  obtain ⟨part', t', sound', named', entry⟩ := following.entry admits faithful copyable sound named
    ((sound.holds named).stored_iff.mp stored)
  have holds := sound'.holds named'
  exact ⟨t', _, named', holds.represents, holds.steady entry⟩

omit [HeaderSpec H] [LawfulVariant H] in
theorem Traced.mono {allowed allowed' : World H K V n → Op K V n → Prop}
    (within : ∀ w op, allowed w op → allowed' w op) (traced : Traced tr allowed w maps) :
    Traced tr allowed' w maps := by
  induction traced with
  | blank => exact .blank
  | step before fine denotes step ih => exact ih.step (within _ _ fine) denotes step

omit [HeaderSpec H] [LawfulVariant H] in
theorem Traced.reaches {allowed : World H K V n → Op K V n → Prop} (traced : Traced tr allowed w maps) :
    Reaches tr allowed w := by
  induction traced with
  | blank => exact .blank
  | step before fine denotes step ih => exact ih.step fine step

omit [HeaderSpec H] [LawfulVariant H] in
theorem StandsFor.present (stands : StandsFor tr fit w maps) {i : ℕ} {m : Table Byte n V}
    (map : maps i = some m) : ∃ t, w.trees i = some t := by
  refine Option.ne_none_iff_exists'.mp fun gone => ?_
  have none := (stands.named i).mpr gone
  rw [map] at none
  cases none

omit [HeaderSpec H] [LawfulVariant H] in
/-- A value can be inserted into each of the containers. -/
theorem StandsFor.exists_insert (stands : StandsFor tr fit w maps) {i : ℕ} {m : Table Byte n V}
    (map : maps i = some m) (x : V) :
    ∃ w', Step tr w (.call i (.insert x)) w' ∧ (Op.call i (.insert x)).Denotes tr w maps
      (Function.update maps i (some (m.putNew (tr.keyOf x) x))) := by
  obtain ⟨t, named⟩ := stands.present map
  obtain ⟨w', step⟩ := stands.returns (.call i (.insert x)) trivial trivial ⟨t, named, trivial⟩
  exact ⟨w', step, .call named map (.insert x)⟩

/-- A run goes on with every operation that applies. -/
theorem Traced.next (admits : Admits H n) (faithful : Faithful fields)
    (copyable : ∀ s, fit s → Copyable fields s) {allowed : World H K V n → Op K V n → Prop}
    (within : ∀ w op, allowed w op → Allowed fit w op) (traced : Traced tr allowed w maps) (op : Op K V n)
    (fine : allowed w op) (applies : op.Applies w) :
    ∃ w' maps', Step tr w op w' ∧ op.Denotes tr w maps maps' ∧ Traced tr allowed w' maps' := by
  have stands := (traced.mono within).standsFor admits faithful copyable
  obtain ⟨plain, copies⟩ := within w op fine
  obtain ⟨w', step⟩ := stands.returns op plain copies applies
  obtain ⟨maps', denotes⟩ := stands.denotes op w' plain copies step
  exact ⟨w', maps', step, denotes, traced.step fine denotes step⟩

/-- A container with few elements needs no `_Node_48`. -/
theorem Traced.not_node48 (admits : Admits H n) (faithful : Faithful fields)
    (copyable : ∀ s, fit s → Copyable fields s) (traced : Traced tr (Allowed fit) w maps) {i : ℕ}
    {xs : List V} (map : maps i = some (Table.ofList tr xs)) (few : xs.length ≤ 16) {t : Tree K n}
    (named : w.trees i = some t) {a : Addr} {h : H} {l : Layout} (inner : IsInner ⟨w.mem, t⟩ a h l) :
    l.getType ≠ .node48 := by
  obtain ⟨part, sound, rfl⟩ := traced.sound admits faithful copyable
  rw [mapsOf_some named, Option.some.injEq] at map
  exact (sound.holds named).not_node48_of_list map few inner

/-! ### A run through the operations -/

/-- The allowed operations that take no root away and lose no nodes. -/
def Careful (tr : Traits K V n) (fit : St H K V n → Prop) (w : World H K V n) (op : Op K V n) : Prop :=
  Allowed fit w op ∧ ¬ op.LosesRoot tr w ∧ ¬ op.LosesNodes w

/-- A container is filled with two values. -/
def filling (x y : V) : List (Op K V n) := [.construct 0, .call 0 (.insert x), .call 0 (.insert y)]

/-- **A tour**: the container is copied, its elements go to another one, and what is left is moved. -/
def tour (x y : V) : List (Op K V n) :=
  filling x y ++ [.copyConstruct 1 0, .construct 2, .swap 0 2, .moveConstruct 3 0]

theorem Traced.careful_standsFor (admits : Admits H n) (faithful : Faithful fields)
    (copyable : ∀ s, fit s → Copyable fields s) (careful : Traced tr (Careful tr fit) w maps) :
    StandsFor tr fit w maps :=
  (careful.mono fun _ _ fine => fine.1).standsFor admits faithful copyable

/-- A container is filled, and there is an iterator to the first of the two values. -/
theorem exists_filled (tr : Traits K V n) (admits : Admits H n) (faithful : Faithful fields)
    (copyable : ∀ s, fit s → Copyable fields s) (x y : V) :
    ∃ (w : World H K V n) (t : Tree K n) (it : Addr), Executes tr (filling x y) w ∧
      Traced tr (Careful tr fit) w (Function.update (fun _ => none) 0 (some (Table.ofList tr [x, y]))) ∧
      w.trees 0 = some t ∧ Stored ⟨w.mem, t⟩ it x := by
  have inserts : ∀ (w : World H K V n) z, Careful tr fit w (.call 0 (.insert z)) :=
    fun w z => ⟨⟨trivial, trivial⟩, fun ⟨_, _, empties⟩ => empties, id⟩
  obtain ⟨w₁, _, step₁, denotes₁, careful₁⟩ :=
    (Traced.blank : Traced tr (Careful tr fit) (World.blank : World H K V n) _).next admits faithful copyable
      (fun _ _ fine => fine.1) (.construct 0) ⟨⟨trivial, trivial⟩, id, id⟩ rfl
  cases denotes₁
  obtain ⟨w₂, step₂, denotes₂⟩ :=
    (careful₁.careful_standsFor admits faithful copyable).exists_insert (Function.update_self _ _ _) x
  have careful₂ := careful₁.step (inserts w₁ x) denotes₂ step₂
  obtain ⟨w₃, step₃, denotes₃⟩ :=
    (careful₂.careful_standsFor admits faithful copyable).exists_insert (Function.update_self _ _ _) y
  have careful₃ := careful₂.step (inserts w₂ y) denotes₃ step₃
  rw [Function.update_idem, Function.update_idem] at careful₃
  have stands := careful₃.careful_standsFor admits faithful copyable
  obtain ⟨t, named⟩ := stands.present (Function.update_self _ _ _)
  have entry : Table.ofList tr [x, y] (tr.keyOf x) = some x := by
    refine putNew_keeps ?_ _ _
    rw [putNew_of_none rfl, Table.put_self]
  have refines := stands.refines 0 t _ named (Function.update_self _ _ _)
  obtain ⟨it, stored, -⟩ := (refines.represents.entries _ _).mp entry
  exact ⟨w₃, t, it, ((Executes.nil.snoc step₁).snoc step₂).snoc step₃, careful₃, named, stored⟩

/-- **The tour**, with the maps at its end and with the first value on its way. -/
theorem exists_tour (tr : Traits K V n) (admits : Admits H n) (faithful : Faithful fields)
    (copyable : ∀ s, fit s → Copyable fields s)
    (small : ∀ s : St H K V n, (∀ a h l, IsInner s a h l → l.getType ≠ .node48) → fit s) (x y : V) :
    ∃ (w₀ w : World H K V n) (maps : Family n V) (t : Tree K n) (it : Addr),
      Reaches tr (Allowed fit) w₀ ∧ w₀.trees 0 = some t ∧ Stored ⟨w₀.mem, t⟩ it x ∧
      Following tr (Allowed fit) it x w₀ 0 w 2 ∧ Executes tr (tour x y) w ∧
      Traced tr (Careful tr fit) w maps ∧ maps 0 = some Table.empty ∧
      maps 1 = some (Table.ofList tr [x, y]) ∧ maps 2 = some (Table.ofList tr [x, y]) ∧
      maps 3 = some Table.empty ∧ ∀ i, 4 ≤ i → maps i = none := by
  have within : ∀ (w : World H K V n) op, Careful tr fit w op → Allowed fit w op := fun _ _ fine => fine.1
  obtain ⟨w₀, t, it, executed, careful₀, named, stored⟩ :=
    exists_filled tr admits faithful copyable x y
  have stands₀ := careful₀.careful_standsFor admits faithful copyable
  have fine₁ : Careful tr fit w₀ (.copyConstruct 1 0) := by
    refine ⟨⟨trivial, fun t named => small _ fun a h l inner => ?_⟩, id, id⟩
    exact (careful₀.mono within).not_node48 admits faithful copyable rfl (by simp) named inner
  obtain ⟨w₁, _, step₁, denotes₁, careful₁⟩ := careful₀.next admits faithful copyable within
    (.copyConstruct 1 0) fine₁ ⟨(stands₀.named 1).mp rfl, named ▸ Option.some_ne_none _⟩
  cases denotes₁
  have stands₁ := careful₁.careful_standsFor admits faithful copyable
  have fine₂ : Careful tr fit w₁ (.construct 2) := ⟨⟨trivial, trivial⟩, id, id⟩
  obtain ⟨w₂, _, step₂, denotes₂, careful₂⟩ := careful₁.next admits faithful copyable within
    (.construct 2) fine₂ ((stands₁.named 2).mp rfl)
  cases denotes₂
  have stands₂ := careful₂.careful_standsFor admits faithful copyable
  have fine₃ : Careful tr fit w₂ (.swap 0 2) := ⟨⟨trivial, trivial⟩, id, id⟩
  obtain ⟨t₀, named₀⟩ := stands₂.present (i := 0) rfl
  obtain ⟨t₂, named₂⟩ := stands₂.present (i := 2) rfl
  obtain ⟨w₃, _, step₃, denotes₃, careful₃⟩ := careful₂.next admits faithful copyable within
    (.swap 0 2) fine₃ ⟨named₀ ▸ Option.some_ne_none _, named₂ ▸ Option.some_ne_none _⟩
  cases denotes₃
  have stands₃ := careful₃.careful_standsFor admits faithful copyable
  obtain ⟨t₃, named₃⟩ := stands₃.present (i := 0) rfl
  have fine₄ : Careful tr fit w₃ (.moveConstruct 3 0) := by
    refine ⟨⟨trivial, trivial⟩, ?_, id⟩
    rintro ⟨t', named', nonempty⟩
    exact nonempty ((stands₃.refines 0 t' _ named' rfl).size.trans size_empty)
  obtain ⟨w₄, _, step₄, denotes₄, careful₄⟩ := careful₃.next admits faithful copyable within
    (.moveConstruct 3 0) fine₄ ⟨(stands₃.named 3).mp rfl, named₃ ▸ Option.some_ne_none _⟩
  cases denotes₄
  have following : Following tr (Allowed fit) it x w₀ 0 w₄ 2 :=
    (((Following.refl.step fine₁.1 id step₁).step fine₂.1 id step₂).step fine₃.1 id step₃).step fine₄.1
      id step₄
  refine ⟨w₀, w₄, _, t, it, (careful₀.mono within).reaches, named, stored, following,
    (((executed.snoc step₁).snoc step₂).snoc step₃).snoc step₄, careful₄, rfl, rfl, rfl, rfl, fun i le => ?_⟩
  have differ : ∀ j, j < 4 → i ≠ j := fun j lt same => absurd lt (same ▸ Nat.not_lt.mpr le)
  rw [Function.update_of_ne (differ 0 (by decide)), Function.update_of_ne (differ 3 (by decide)),
    Function.update_of_ne (differ 2 (by decide)), Function.update_of_ne (differ 0 (by decide)),
    Function.update_of_ne (differ 2 (by decide)), Function.update_of_ne (differ 1 (by decide)),
    Function.update_of_ne (differ 0 (by decide))]

/-- The containers at the end of the tour are those with the first four names. -/
theorem exists_toured (tr : Traits K V n) (admits : Admits H n) (faithful : Faithful fields)
    (copyable : ∀ s, fit s → Copyable fields s)
    (small : ∀ s : St H K V n, (∀ a h l, IsInner s a h l → l.getType ≠ .node48) → fit s) (x y : V) :
    ∃ (w : World H K V n) (maps : Family n V), Executes tr (tour x y) w ∧ Traced tr (Careful tr fit) w maps ∧
      (∀ i, maps i ≠ none ↔ i < 4) ∧ ∀ i, w.trees i ≠ none ↔ i < 4 := by
  obtain ⟨-, w, maps, -, -, -, -, -, -, executed, careful, map₀, map₁, map₂, map₃, others⟩ :=
    exists_tour tr admits faithful copyable small x y
  have stands := careful.careful_standsFor admits faithful copyable
  have present : ∀ i, maps i ≠ none ↔ i < 4 := by
    intro i
    constructor
    · intro named
      by_contra beyond
      exact named (others i (Nat.not_lt.mp beyond))
    · intro lt
      interval_cases i
      · simp [map₀]
      · simp [map₁]
      · simp [map₂]
      · simp [map₃]
  exact ⟨w, maps, executed, careful, present, fun i => by rw [Ne, ← stands.named i]; exact present i⟩

/-- All containers are destroyed, one after another. -/
theorem Traced.exists_destroyed (admits : Admits H n) (faithful : Faithful fields)
    (copyable : ∀ s, fit s → Copyable fields s) (names : List ℕ) :
    ∀ {w : World H K V n} {maps : Family n V} {ops : List (Op K V n)}, names.Nodup → Executes tr ops w →
      Traced tr (Careful tr fit) w maps → (∀ i, maps i ≠ none ↔ i ∈ names) →
      ∃ w', Executes tr (ops ++ names.map .destroy) w' ∧ Reaches tr (Careful tr fit) w' ∧
        ∀ i, w'.trees i = none := by
  induction names with
  | nil =>
      intro w maps ops _ executed careful present
      have stands := careful.careful_standsFor admits faithful copyable
      refine ⟨w, ?_, careful.reaches, fun i => (stands.named i).mp ?_⟩
      · rwa [List.map_nil, List.append_nil]
      · by_contra named
        exact List.not_mem_nil ((present i).mp named)
  | cons i names ih =>
      intro w maps ops distinct executed careful present
      obtain ⟨fresh, distinct'⟩ := List.nodup_cons.mp distinct
      have stands := careful.careful_standsFor admits faithful copyable
      have named : w.trees i ≠ none := by
        rw [Ne, ← stands.named i]
        exact (present i).mpr List.mem_cons_self
      have fine : Careful tr fit w (.destroy i) := ⟨⟨trivial, trivial⟩, id, id⟩
      obtain ⟨w', _, step, denotes, careful'⟩ := careful.next admits faithful copyable
        (fun _ _ fine => fine.1) (.destroy i) fine named
      cases denotes
      obtain ⟨w₁, executed₁, reaches, gone⟩ := ih distinct' (executed.snoc step) careful' fun j => by
        by_cases same : j = i
        · subst same
          simp [fresh]
        · rw [Function.update_of_ne same, present j, List.mem_cons, or_iff_right same]
      refine ⟨w₁, ?_, reaches, gone⟩
      rwa [List.append_assoc] at executed₁

/-- The elements are moved back at the end of the tour. -/
theorem exists_returned (tr : Traits K V n) (admits : Admits H n) (faithful : Faithful fields)
    (copyable : ∀ s, fit s → Copyable fields s)
    (small : ∀ s : St H K V n, (∀ a h l, IsInner s a h l → l.getType ≠ .node48) → fit s) (x y : V) :
    ∃ (w₀ w : World H K V n) (maps : Family n V) (t : Tree K n) (it : Addr),
      Reaches tr (Allowed fit) w₀ ∧ w₀.trees 0 = some t ∧ Stored ⟨w₀.mem, t⟩ it x ∧
      Following tr (Allowed fit) it x w₀ 0 w 0 ∧ Executes tr (tour x y ++ [.moveAssign 0 2]) w ∧
      Traced tr (Allowed fit) w maps ∧ maps 0 = some (Table.ofList tr [x, y]) ∧
      maps 1 = some (Table.ofList tr [x, y]) ∧ maps 2 = some Table.empty := by
  obtain ⟨w₀, w, maps, t, it, reaches, named, stored, following, executed, careful, map₀, map₁, map₂, -⟩ :=
    exists_tour tr admits faithful copyable small x y
  have traced : Traced tr (Allowed fit) w maps := careful.mono fun _ _ fine => fine.1
  have stands := traced.standsFor admits faithful copyable
  obtain ⟨t₀, named₀⟩ := stands.present map₀
  obtain ⟨t₂, named₂⟩ := stands.present map₂
  have fine : Allowed fit w (.moveAssign 0 2) := ⟨trivial, trivial⟩
  obtain ⟨w', _, step, denotes, traced'⟩ := traced.next admits faithful copyable (fun _ _ fine => fine)
    (.moveAssign 0 2) fine ⟨named₀ ▸ Option.some_ne_none _, named₂ ▸ Option.some_ne_none _⟩
  cases denotes
  have stays : ¬ (Op.moveAssign 0 2 : Op K V n).Takes tr 2 it x := by
    show ¬ 2 = 0
    decide
  exact ⟨w₀, w', _, t, it, reaches, named, stored, following.step fine stays step, executed.snoc step,
    traced', map₂, map₁, rfl⟩

end Runs

end Steps

end World

/-! ### The two classes -/

/-- **Containers of either class refine a family of maps**, through constructors, assignments, moves,
`swap`, calls and destructors. -/
theorem family_refined {K V : Type} {n : ℕ} (tr : Traits K V n) :
    (∀ (w : World DepthHeader K V n) (maps : Family n V),
      World.Traced tr (World.Allowed ArTree.FitToCopy) w maps → w.StandsFor tr ArTree.FitToCopy maps) ∧
    ∀ (w : World PrefixHeader K V n) (maps : Family n V), n ≤ 65536 →
      World.Traced tr (World.Allowed ArPrefixTree.FitToCopy) w maps →
      w.StandsFor tr ArPrefixTree.FitToCopy maps :=
  ⟨fun _ _ traced => traced.standsFor trivial ArTree.faithful fun _ => ArTree.copyable_iff.mpr,
    fun _ _ fits traced => traced.standsFor fits ArPrefixTree.faithful
      fun _ => ArPrefixTree.copyable_iff.mpr⟩

/-- Two elements have been copied, exchanged and moved, in either class. -/
theorem family_refined_moved :
    (∃ (w : World DepthHeader (Key 1) (Key 1) 1) (maps : Family 1 (Key 1)),
      World.Executes (Traits.identity 1) (World.tour ⟨#v[7]⟩ ⟨#v[9]⟩ ++ [.moveAssign 0 2]) w ∧
        maps 0 = some (Table.ofList (Traits.identity 1) [⟨#v[7]⟩, ⟨#v[9]⟩]) ∧
        maps 1 = some (Table.ofList (Traits.identity 1) [⟨#v[7]⟩, ⟨#v[9]⟩]) ∧
        maps 2 = some Table.empty ∧ w.StandsFor (Traits.identity 1) ArTree.FitToCopy maps) ∧
    ∃ (w : World PrefixHeader (Key 1) (Key 1) 1) (maps : Family 1 (Key 1)),
      World.Executes (Traits.identity 1) (World.tour ⟨#v[7]⟩ ⟨#v[9]⟩ ++ [.moveAssign 0 2]) w ∧
        maps 0 = some (Table.ofList (Traits.identity 1) [⟨#v[7]⟩, ⟨#v[9]⟩]) ∧
        maps 1 = some (Table.ofList (Traits.identity 1) [⟨#v[7]⟩, ⟨#v[9]⟩]) ∧
        maps 2 = some Table.empty ∧ w.StandsFor (Traits.identity 1) ArPrefixTree.FitToCopy maps := by
  have fits : 1 ≤ 65536 := by decide
  obtain ⟨-, w, maps, -, -, -, -, -, -, executed, traced, map₀, map₁, map₂⟩ :=
    World.exists_returned (H := DepthHeader) (Traits.identity 1) trivial ArTree.faithful
      (fun _ => ArTree.copyable_iff.mpr) (fun _ => ArTree.fit_of_ne) ⟨#v[7]⟩ ⟨#v[9]⟩
  obtain ⟨-, w', maps', -, -, -, -, -, -, executed', traced', map₀', map₁', map₂'⟩ :=
    World.exists_returned (H := PrefixHeader) (Traits.identity 1) fits ArPrefixTree.faithful
      (fun _ => ArPrefixTree.copyable_iff.mpr) (fun _ => ArPrefixTree.fit_of_ne) ⟨#v[7]⟩ ⟨#v[9]⟩
  exact ⟨⟨w, maps, executed, map₀, map₁, map₂, (family_refined _).1 w maps traced⟩,
    w', maps', executed', map₀', map₁', map₂', (family_refined _).2 w' maps' fits traced'⟩

/-- **Iterators stay with their elements** where these change hands. -/
theorem iterators_follow {K V : Type} {n : ℕ} (tr : Traits K V n) :
    (∀ (w w' : World DepthHeader K V n) (k k' : ℕ) (t : Tree K n) (it : Addr) (v : V),
      World.Reaches tr (World.Allowed ArTree.FitToCopy) w → w.trees k = some t →
      Stored ⟨w.mem, t⟩ it v →
      World.Following tr (World.Allowed ArTree.FitToCopy) it v w k w' k' →
      ∃ t' m', w'.trees k' = some t' ∧ Represents tr ⟨w'.mem, t'⟩ m' ∧ Steady tr ⟨w'.mem, t'⟩ m' it v) ∧
    ∀ (w w' : World PrefixHeader K V n) (k k' : ℕ) (t : Tree K n) (it : Addr) (v : V), n ≤ 65536 →
      World.Reaches tr (World.Allowed ArPrefixTree.FitToCopy) w → w.trees k = some t →
      Stored ⟨w.mem, t⟩ it v →
      World.Following tr (World.Allowed ArPrefixTree.FitToCopy) it v w k w' k' →
      ∃ t' m', w'.trees k' = some t' ∧ Represents tr ⟨w'.mem, t'⟩ m' ∧ Steady tr ⟨w'.mem, t'⟩ m' it v :=
  ⟨fun _ _ _ _ _ _ _ reaches named stored following => reaches.follow trivial ArTree.faithful
      (fun _ => ArTree.copyable_iff.mpr) named stored following,
    fun _ _ _ _ _ _ _ fits reaches named stored following => reaches.follow fits
      ArPrefixTree.faithful (fun _ => ArPrefixTree.copyable_iff.mpr) named stored following⟩

/-- An iterator to one of two elements, which have been copied, exchanged and moved. -/
theorem iterators_follow_moved :
    (∃ (w : World DepthHeader (Key 1) (Key 1) 1) (t : Tree (Key 1) 1) (m : Table Byte 1 (Key 1))
        (it : Addr),
      World.Executes (Traits.identity 1) (World.tour ⟨#v[7]⟩ ⟨#v[9]⟩ ++ [.moveAssign 0 2]) w ∧
      w.trees 0 = some t ∧ Represents (Traits.identity 1) ⟨w.mem, t⟩ m ∧
      Steady (Traits.identity 1) ⟨w.mem, t⟩ m it ⟨#v[7]⟩) ∧
    ∃ (w : World PrefixHeader (Key 1) (Key 1) 1) (t : Tree (Key 1) 1) (m : Table Byte 1 (Key 1))
        (it : Addr),
      World.Executes (Traits.identity 1) (World.tour ⟨#v[7]⟩ ⟨#v[9]⟩ ++ [.moveAssign 0 2]) w ∧
      w.trees 0 = some t ∧ Represents (Traits.identity 1) ⟨w.mem, t⟩ m ∧
      Steady (Traits.identity 1) ⟨w.mem, t⟩ m it ⟨#v[7]⟩ := by
  have fits : 1 ≤ 65536 := by decide
  obtain ⟨w₀, w, -, t, it, reaches, named, stored, following, executed, -⟩ :=
    World.exists_returned (H := DepthHeader) (Traits.identity 1) trivial ArTree.faithful
      (fun _ => ArTree.copyable_iff.mpr) (fun _ => ArTree.fit_of_ne) ⟨#v[7]⟩ ⟨#v[9]⟩
  obtain ⟨w₀', w', -, t', it', reaches', named', stored', following', executed', -⟩ :=
    World.exists_returned (H := PrefixHeader) (Traits.identity 1) fits ArPrefixTree.faithful
      (fun _ => ArPrefixTree.copyable_iff.mpr) (fun _ => ArPrefixTree.fit_of_ne) ⟨#v[7]⟩ ⟨#v[9]⟩
  obtain ⟨u, m, after⟩ := (iterators_follow _).1 w₀ w 0 0 t it ⟨#v[7]⟩ reaches named stored following
  obtain ⟨u', m', after'⟩ :=
    (iterators_follow _).2 w₀' w' 0 0 t' it' ⟨#v[7]⟩ fits reaches' named' stored' following'
  exact ⟨⟨w, u, m, it, executed, after⟩, w', u', m', it', executed', after'⟩

end CppArt
