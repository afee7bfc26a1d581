/-
**Containers in one memory share no address.**

`containers tr` is the predicate of one container: it represents a map, with its end leaf and the addresses
it owns. A constructor owns new addresses, and a call on one container changes addresses of its own and
takes new ones, so all other containers are as they were.

* `World.Reaches.holding`: the containers of every state that is reached.
-/

import CppArt.Lib.Ownership
import CppArt.Model.World
import CppArt.Proof.Duo

namespace CppArt

open Table

variable {H K V : Type} {n : ℕ}

/-- A legal call has an effect on every map. -/
theorem Call.Legal.effect {tr : Traits K V n} {s : St H K V n} {call : Call K V} (legal : call.Legal s)
    (m : Table Byte n V) : ∃ m', call.Effect tr s m m' := by
  cases call with
  | insert x => exact ⟨_, .insert x⟩
  | emplace x => exact ⟨_, .emplace x⟩
  | erase k => exact ⟨_, .erase k⟩
  | eraseAt it =>
      obtain ⟨v, stored⟩ := legal
      exact ⟨_, .eraseAt it v stored⟩
  | clear => exact ⟨_, .clear⟩

/-- What describes a container: its end leaf, the map it represents, and the addresses it owns. -/
structure Part (n : ℕ) (V : Type) where
  leaf : Addr
  map : Contents n V
  own : Set Addr

/-- The description of no container. -/
def Part.nothing : Part n V := ⟨0, Table.empty, ∅⟩

/-- Every address of a container is live. -/
theorem Holds.live [Header H] [HeaderSpec H] {tr : Traits K V n} {s : St H K V n} {e x : Addr}
    {M : Contents n V} {own : Set Addr} (holds : Holds tr s e M own) (inside : x ∈ own) :
    s.mem.get x ≠ none := by
  obtain ⟨cell, here⟩ := holds.whole.live x inside
  rw [here]
  exact Option.some_ne_none cell

/-- **A container in a memory.** -/
def containers [Header H] [HeaderSpec H] (tr : Traits K V n) :
    Local (Cell H V) (Tree K n) (Part n V) where
  Is mem tree part := Holds tr ⟨mem, tree⟩ part.leaf part.map part.own
  own := Part.own
  frame holds same failAt := holds.frame same failAt
  alive holds _ inside := holds.live inside

namespace World

variable [Variant H] [HeaderSpec H] {tr : Traits K V n} {w w' : World H K V n} {part : ℕ → Part n V}

omit [Variant H] [HeaderSpec H] in
@[simp] theorem put_self (w : World H K V n) (i : ℕ) (s : St H K V n) :
    (w.put i s).trees i = some s.tree :=
  Function.update_self _ _ _

omit [Variant H] [HeaderSpec H] in
theorem put_of_ne (w : World H K V n) {i k : ℕ} (s : St H K V n) (other : k ≠ i) :
    (w.put i s).trees k = w.trees k :=
  Function.update_of_ne other _ _

/-- **The containers of a world** and what they own. -/
def Holding (tr : Traits K V n) (w : World H K V n) (part : ℕ → Part n V) : Prop :=
  w.mem.failAt = none ∧ Parted (containers tr) w.mem w.trees part

theorem Holding.blank : Holding tr (World.blank : World H K V n) fun _ => Part.nothing := by
  refine ⟨rfl, fun i x named => ?_, fun i j differ => Set.disjoint_left.mpr fun a inside => ?_⟩
  · cases named
  · exact absurd rfl inside.1

theorem Holding.holds (holding : Holding tr w part) {i : ℕ} {t : Tree K n} (named : w.trees i = some t) :
    Holds tr ⟨w.mem, t⟩ (part i).leaf (part i).map (part i).own :=
  holding.2.is i t named

/-- **The constructor** makes an empty container of two new addresses. -/
theorem Holding.construct (holding : Holding tr w part) {i : ℕ} (free : w.trees i = none) :
    ∃ s, init ⟨w.mem, Tree.uninitialised tr.defaultTransform⟩ = .ok ⟨⟩ s ∧
      Holding tr (w.put i s) (Function.update part i
        ⟨w.mem.next + 1, Table.empty, {w.mem.next, w.mem.next + 1}⟩) := by
  obtain ⟨s, run, holds, keeps, -⟩ := init_spec tr holding.1
    (Tree.uninitialised tr.defaultTransform) rfl
  have none : owned (containers (H := H) tr) w.trees part i = ∅ := owned_of_none free
  refine ⟨s, run, holds.calm, holding.2.put (none ▸ keeps) (fun a inside => .inr ?_) holds⟩
  rcases inside with rfl | rfl
  · exact le_rfl
  · exact Nat.le_succ _

variable [LawfulVariant H]

/-- **A legal call** changes its container and no other. -/
theorem Holding.call (admits : Admits H n) (holding : Holding tr w part) {i : ℕ} {t : Tree K n}
    (named : w.trees i = some t) {call : Call K V} (legal : call.Legal ⟨w.mem, t⟩) :
    ∃ answer s e M own, perform tr call ⟨w.mem, t⟩ = .ok answer s ∧
      Holding tr (w.put i s) (Function.update part i ⟨e, M, own⟩) := by
  obtain ⟨m', effect⟩ := legal.effect (values (part i).map)
  obtain ⟨answer, s, M, own, run, holds, moves, -⟩ := perform_spec admits (holding.holds named) effect
  have mine : owned (containers (H := H) tr) w.trees part i = (part i).own := owned_of_some named
  refine ⟨answer, s, _, M, own, run, holds.calm, holding.2.put (mine ▸ moves.keeps) ?_ holds⟩
  rw [mine]
  exact moves.renews.within

/-- **The containers of every state that is reached** by constructors and calls share no address. -/
theorem Reaches.holding (admits : Admits H n) (reaches : Reaches tr (fun _ op => op.Plain) w) :
    ∃ part, Holding tr w part := by
  induction reaches with
  | blank => exact ⟨_, Holding.blank⟩
  | step before plain step ih =>
      obtain ⟨part, holding⟩ := ih
      cases step with
      | construct free run =>
          obtain ⟨s, run', holding'⟩ := holding.construct free
          cases run.symm.trans run'
          exact ⟨_, holding'⟩
      | call target legal run =>
          obtain ⟨answer, s, e, M, own, run', holding'⟩ := holding.call admits target legal
          cases run.symm.trans run'
          exact ⟨_, holding'⟩
      | constructWith | copyConstruct | moveConstruct | copyAssignSelf | copyAssign | moveAssignSelf
      | moveAssign | swap | destroy => exact plain.elim

omit [HeaderSpec H] [LawfulVariant H] in
/-- What is reached when fewer operations are allowed. -/
theorem Reaches.mono {allowed allowed' : World H K V n → Op K V n → Prop} (reaches : Reaches tr allowed w)
    (sub : ∀ w op, allowed w op → allowed' w op) : Reaches tr allowed' w := by
  induction reaches with
  | blank => exact .blank
  | step before fine step ih => exact ih.step (sub _ _ fine) step

omit [HeaderSpec H] [LawfulVariant H] in
/-- A new container. -/
theorem Reaches.construct (reaches : Reaches tr (fun _ op => op.Plain) w) {i : ℕ} {s : St H K V n}
    (free : w.trees i = none) (run : init ⟨w.mem, Tree.uninitialised tr.defaultTransform⟩ = .ok ⟨⟩ s) :
    Reaches tr (fun _ op => op.Plain) (w.put i s) :=
  have plain : (Op.construct i : Op K V n).Plain := trivial
  .step reaches plain (.construct free run)

omit [HeaderSpec H] [LawfulVariant H] in
/-- A call on a container. -/
theorem Reaches.call (reaches : Reaches tr (fun _ op => op.Plain) w) {i : ℕ} {t : Tree K n}
    {s : St H K V n} {call : Call K V} {answer : Answer} (named : w.trees i = some t)
    (legal : call.Legal ⟨w.mem, t⟩) (run : perform tr call ⟨w.mem, t⟩ = .ok answer s) :
    Reaches tr (fun _ op => op.Plain) (w.put i s) :=
  have plain : (Op.call i call : Op K V n).Plain := trivial
  .step reaches plain (.call named legal run)

/-- A container is constructed, and a value is inserted. -/
theorem exists_one (admits : Admits H n) (tr : Traits K V n)
    (mem : Memory (Cell H V)) (calm : mem.failAt = none) (x : V) :
    ∃ (s₀ s : St H K V n) (answer : Answer) (e it : Addr) (M : Contents n V) (own : Set Addr),
      init ⟨mem, Tree.uninitialised tr.defaultTransform⟩ = .ok ⟨⟩ s₀ ∧
      perform tr (.insert x) s₀ = .ok answer s ∧ Holds tr s e M own ∧ Stored s it x ∧
      s.tree.count = 1 := by
  obtain ⟨s₀, run, holds, -⟩ := init_spec tr calm (Tree.uninitialised tr.defaultTransform) rfl
  obtain ⟨answer, s, M, own, run', holds', -, values', -⟩ := perform_spec admits holds (.insert x)
  have absent : values (Table.empty : Contents n V) (tr.keyOf x) = none := rfl
  rw [putNew_of_none absent] at values'
  have entry : values M (tr.keyOf x) = some x := by rw [values', Table.put_self]
  obtain ⟨it, entry'⟩ := values_eq_some.mp entry
  refine ⟨s₀, s, answer, _, it, M, own, run, run', holds', holds'.stored_iff.mpr entry', ?_⟩
  rw [holds'.count, ← size_values, values', size_put_of_eq_none absent, values_empty, size_empty]

/-- Two containers are constructed, and a value is inserted into each. -/
theorem exists_two (admits : Admits H n) (tr : Traits K V n) (x y : V) :
    ∃ (w : World H K V n) (a b : Tree K n), Reaches tr (fun _ op => op.Plain) w ∧
      w.trees 0 = some a ∧ w.trees 1 = some b := by
  have zero : (0 : ℕ) ≠ 1 := by decide
  have legal : ∀ (s : St H K V n) (z : V), (Call.insert z : Call K V).Legal s := fun _ _ => trivial
  have start : Holding tr (World.blank : World H K V n) fun _ => Part.nothing := Holding.blank
  obtain ⟨s₀, run₀, holding₀⟩ := start.construct (i := 0) rfl
  have free : (World.blank.put 0 s₀).trees 1 = none := put_of_ne _ _ zero.symm
  obtain ⟨s₁, run₁, holding₁⟩ := holding₀.construct free
  have named : ((World.blank.put 0 s₀).put 1 s₁).trees 0 = some s₀.tree :=
    (put_of_ne _ _ zero).trans (put_self _ _ _)
  obtain ⟨answer₂, s₂, e₂, M₂, own₂, run₂, holding₂⟩ := holding₁.call admits named (legal _ x)
  have named' : (((World.blank.put 0 s₀).put 1 s₁).put 0 s₂).trees 1 = some s₁.tree :=
    (put_of_ne _ _ zero.symm).trans (put_self _ _ _)
  obtain ⟨answer₃, s₃, e₃, M₃, own₃, run₃, -⟩ := holding₂.call admits named' (legal _ y)
  refine ⟨_, s₂.tree, s₃.tree, (((Reaches.construct .blank rfl run₀).construct free run₁).call named
    (legal _ x) run₂).call named' (legal _ y) run₃, ?_, put_self _ _ _⟩
  exact (put_of_ne _ _ zero).trans (put_self _ _ _)

end World

end CppArt
