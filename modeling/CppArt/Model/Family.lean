/-
**What any number of containers stand for.**

A `Family` gives each name the map of its container. `Op.Denotes` says what an operation does to the maps,
whatever the nodes are: a copy stands for the map of its source, a move hands the map over and leaves an
empty one, `swap` exchanges two. `World.Traced` are the runs with the family beside every state.

An element keeps its node, and so its iterators, where a move or a `swap` gives it to another container:
`Op.home` is the container that has it afterwards, and `World.Following` are the runs that never take it
away.
-/

import CppArt.Model.Links
import CppArt.Model.World

namespace CppArt

variable {H K V : Type} {n : ℕ}

/-- Maps, by the names of the containers that stand for them. -/
abbrev Family (n : ℕ) (V : Type) := ℕ → Option (Table Byte n V)

/-- **What an operation does to the maps.** -/
inductive Op.Denotes (tr : Traits K V n) (w : World H K V n) (maps : Family n V) :
    Op K V n → Family n V → Prop
  | construct (i : ℕ) : Denotes tr w maps (.construct i) (Function.update maps i (some Table.empty))
  | copyConstruct (i j : ℕ) :
      Denotes tr w maps (.copyConstruct i j) (Function.update maps i (maps j))
  | moveConstruct (i j : ℕ) : Denotes tr w maps (.moveConstruct i j)
      (Function.update (Function.update maps i (maps j)) j (some Table.empty))
  | copyAssign (i j : ℕ) : Denotes tr w maps (.copyAssign i j) (Function.update maps i (maps j))
  | moveAssign (i j : ℕ) : Denotes tr w maps (.moveAssign i j)
      (Function.update (Function.update maps i (maps j)) j (some Table.empty))
  | swap (i j : ℕ) : Denotes tr w maps (.swap i j)
      (Function.update (Function.update maps i (maps j)) j (maps i))
  | call {i : ℕ} {t : Tree K n} {m m' : Table Byte n V} {call : Call K V}
      (target : w.trees i = some t) (map : maps i = some m) (effect : call.Effect tr ⟨w.mem, t⟩ m m') :
      Denotes tr w maps (.call i call) (Function.update maps i (some m'))
  | destroy (i : ℕ) : Denotes tr w maps (.destroy i) (Function.update maps i none)

/-- **An operation may be called**: constructors take a new name, the others names in use, and iterators
to erase at point to elements. -/
def Op.Applies (w : World H K V n) : Op K V n → Prop
  | .construct i => w.trees i = none
  | .constructWith i _ => w.trees i = none
  | .copyConstruct i j => w.trees i = none ∧ w.trees j ≠ none
  | .moveConstruct i j => w.trees i = none ∧ w.trees j ≠ none
  | .copyAssign i j => w.trees i ≠ none ∧ w.trees j ≠ none
  | .moveAssign i j => w.trees i ≠ none ∧ w.trees j ≠ none
  | .swap i j => w.trees i ≠ none ∧ w.trees j ≠ none
  | .call i c => ∃ t, w.trees i = some t ∧ c.Legal ⟨w.mem, t⟩
  | .destroy i => w.trees i ≠ none

/-- **The container that has the elements of the container `k` afterwards.** -/
def Op.home : Op K V n → ℕ → ℕ
  | .moveConstruct i j, k => if k = j then i else k
  | .moveAssign i j, k => if k = j then i else k
  | .swap i j, k => if k = i then j else if k = j then i else k
  | _, k => k

/-- The operation takes the element `v`, at the iterator `it`, out of the container `k`. -/
def Op.Takes (tr : Traits K V n) (k : ℕ) (it : Addr) (v : V) : Op K V n → Prop
  | .copyAssign i j => k = i ∧ i ≠ j
  | .moveAssign i _ => k = i
  | .call i c => k = i ∧ ¬ c.Spares tr it v
  | .destroy i => k = i
  | _ => False

namespace World

/-- The operations of the runs: transformers are default-constructed, and what is copied is fit for it. -/
def Allowed (fit : St H K V n → Prop) (w : World H K V n) (op : Op K V n) : Prop :=
  op.Default ∧ op.CopiesFit fit w

variable [Variant H]

/-- **The runs of operations** of an allowed kind, with the maps that the containers stand for. -/
inductive Traced (tr : Traits K V n) (allowed : World H K V n → Op K V n → Prop) :
    World H K V n → Family n V → Prop
  | blank : Traced tr allowed blank fun _ => none
  | step {w w' : World H K V n} {maps maps' : Family n V} {op : Op K V n}
      (before : Traced tr allowed w maps) (fine : allowed w op) (denotes : op.Denotes tr w maps maps')
      (step : Step tr w op w') : Traced tr allowed w' maps'

/-- **The runs that never take an element away**, with the container that has it. -/
inductive Following (tr : Traits K V n) (allowed : World H K V n → Op K V n → Prop) (it : Addr) (v : V)
    (w₀ : World H K V n) (k₀ : ℕ) : World H K V n → ℕ → Prop
  | refl : Following tr allowed it v w₀ k₀ w₀ k₀
  | step {w w' : World H K V n} {k : ℕ} {op : Op K V n} (before : Following tr allowed it v w₀ k₀ w k)
      (fine : allowed w op) (leaves : ¬ op.Takes tr k it v) (step : Step tr w op w') :
      Following tr allowed it v w₀ k₀ w' (op.home k)

end World

end CppArt
