/-
**Operations on containers that throw.**

Every operation that allocates may throw instead, wherever the allocation that fails stands in it. A
constructor that throws has made no container. The copy assignment has cleared its target by then. What
has been allocated before the throw is lost, since a node does not delete its children.

`World.Tried` are the runs in which operations may throw, and `Op.aborted` says what the maps are after
one that has.
-/

import CppArt.Model.Failure
import CppArt.Model.Family

namespace CppArt

variable {H K V : Type} {n : ℕ}

/-- **The maps after an operation that has thrown.** -/
def Op.aborted (maps : Family n V) : Op K V n → Family n V
  | .copyAssign i _ => Function.update maps i (some Table.empty)
  | _ => maps

namespace World

variable [Variant H]

/-- **One operation that throws**, because the allocation at the address `a` fails. Of the calls these are
the insertions whose allocation before any restructuring fails. -/
inductive Throws (tr : Traits K V n) : World H K V n → Op K V n → World H K V n → Prop
  | construct {w : World H K V n} {i a : ℕ} {s : St H K V n} (free : w.trees i = none)
      (run : init ⟨w.mem.arm a, Tree.uninitialised tr.defaultTransform⟩ = .error .badAlloc s) :
      Throws tr w (.construct i) ⟨s.mem, w.trees⟩
  | copyConstruct {w : World H K V n} {i j a : ℕ} {x : Tree K n} {s : St H K V n}
      (free : w.trees i = none) (source : w.trees j = some x)
      (run : CppArt.copyConstruct x ⟨w.mem.arm a, Tree.uninitialised tr.defaultTransform⟩
        = .error .badAlloc s) : Throws tr w (.copyConstruct i j) ⟨s.mem, w.trees⟩
  | moveConstruct {w : World H K V n} {i j a : ℕ} {x : Tree K n} {s : St H K V n}
      (free : w.trees i = none) (source : w.trees j = some x)
      (run : CppArt.moveConstruct x ⟨w.mem.arm a, Tree.uninitialised tr.defaultTransform⟩
        = .error .badAlloc s) : Throws tr w (.moveConstruct i j) ⟨s.mem, w.trees⟩
  | copyAssign {w : World H K V n} {i j a : ℕ} {t x : Tree K n} {s : St H K V n} (other : i ≠ j)
      (target : w.trees i = some t) (source : w.trees j = some x)
      (run : CppArt.copyAssign x ⟨w.mem.arm a, t⟩ = .error .badAlloc s) :
      Throws tr w (.copyAssign i j) (w.put i s)
  | call {w : World H K V n} {i k : ℕ} {t : Tree K n} {call : Call K V} {s : St H K V n}
      (target : w.trees i = some t) (spared : call.Spared k)
      (run : perform tr call ⟨w.mem.arm (w.mem.next + k), t⟩ = .error .badAlloc s) :
      Throws tr w (.call i call) (w.put i s)

/-- **The runs in which operations may throw**, with the maps that the containers stand for. -/
inductive Tried (tr : Traits K V n) (allowed : World H K V n → Op K V n → Prop) :
    World H K V n → Family n V → Prop
  | blank : Tried tr allowed blank fun _ => none
  | step {w w' : World H K V n} {maps maps' : Family n V} {op : Op K V n}
      (before : Tried tr allowed w maps) (fine : allowed w op) (denotes : op.Denotes tr w maps maps')
      (step : Step tr w op w') : Tried tr allowed w' maps'
  | thrown {w w' : World H K V n} {maps : Family n V} {op : Op K V n} (before : Tried tr allowed w maps)
      (throws : Throws tr w op w') : Tried tr allowed w' (op.aborted maps)

end World

end CppArt
