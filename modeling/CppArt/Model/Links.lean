/-
**Links between nodes, and iterators that stay.**

`Linked` says that the child pointers and the `_parent` pointers of a tree agree. `SparingRun` are the
calls on a container that spare one element, and `Steady` is what is left of an iterator to that element
afterwards.
-/

import CppArt.Model.Shape

namespace CppArt

variable {H K V : Type} {n : ℕ}

/-- The pointer in a slot of the children array that is in use. -/
def Layout.slotAt : Layout → ℕ → Option Addr
  | .node4 nd, i => if i < nd.count then (nd.children[i]?).join else none
  | .node16 nd, i => if i < nd.count then (nd.children[i]?).join else none
  | .node48 nd, i => (nd.children[i]?).join
  | .node256 nd, i => (nd.children[i]?).join

/-- **Child pointers and parents agree**, and no node is held by two slots. -/
structure Linked (s : St H K V n) : Prop where
  child : ∀ a h l i c, IsInner s a h l → l.slotAt i = some c →
    ∃ body, s.mem.get c = some ⟨some a, body⟩
  root : ∀ r, s.tree.root = some r → ∃ body, s.mem.get r = some ⟨some s.tree.dummyNode, body⟩
  once : ∀ a h l i a' h' l' i' c, IsInner s a h l → l.slotAt i = some c → IsInner s a' h' l' →
    l'.slotAt i' = some c → a = a' ∧ i = i'
  top : ∀ a h l i r, s.tree.root = some r → IsInner s a h l → l.slotAt i ≠ some r

/-! ### Iterators that stay -/

/-- The call does not erase the element `v`, at the iterator `it`. -/
def Call.Spares (tr : Traits K V n) (it : Addr) (v : V) : Call K V → Prop
  | .insert _ => True
  | .emplace _ => True
  | .erase k => tr.defaultTransform k ≠ tr.keyOf v
  | .eraseAt it' => it' ≠ it
  | .clear => False

/-- **Calls that spare an element**, with the reference map. -/
inductive SparingRun [Variant H] (tr : Traits K V n) (it : Addr) (v : V) (s₀ : St H K V n)
    (m₀ : Table Byte n V) : St H K V n → Table Byte n V → Prop
  | refl : SparingRun tr it v s₀ m₀ s₀ m₀
  | call {s s' : St H K V n} {m m' : Table Byte n V} {call : Call K V} {answer : Answer}
      (before : SparingRun tr it v s₀ m₀ s m) (spares : call.Spares tr it v)
      (effect : call.Effect tr s m m') (run : perform tr call s = .ok answer s') :
      SparingRun tr it v s₀ m₀ s' m'

/-- **The iterator still points to the element**, `++` leads to the successor of its key, and `--` to the
predecessor, unless the element is the first. -/
structure Steady [Header H] (tr : Traits K V n) (s : St H K V n) (m : Table Byte n V) (it : Addr)
    (v : V) : Prop where
  stored : Stored s it v
  value : leafValue it s = .ok v s
  next : ∃ next, increment tr it s = .ok next s ∧
    PointsTo tr s {u | u ∈ Table.dom m ∧ tr.keyOf v < u} next
  prev : (∃ prev u, decrement tr it s = .ok prev s ∧ Stored s prev u ∧
    IsGreatest {w | w ∈ Table.dom m ∧ w < tr.keyOf v} (tr.keyOf u)) ∨ beginIt s = .ok it s

end CppArt
