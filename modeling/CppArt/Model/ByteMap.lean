/-
**Runs on one inner node.**

An inner node stands for a partial map from bytes to children. Here one node is used on its own: it starts
as a `_Node_4` with one child, grows when it is full before an insertion, as `insert_unique` does, and
shrinks to the next smaller of the three larger types when an erasure has left too few children, as
`shrink_after_erase` does. Between these calls anything else may happen to the memory, as long as the
node keeps its arrays and no child is deleted.
-/

import CppArt.Model.Node

namespace CppArt

variable {H K V : Type} {n : ℕ}

/-- `if (size() == max_size()) node = grow(node); node->insert(key_byte, child);` -/
def insertGrowing (node : Addr) (keyByte : Byte) (child : Addr) : Run H K V n Addr := do
  let size ← sizeOf node
  let maxSize ← maxSizeOf node
  if size = maxSize then do
    let grown ← grow node
    insertChild grown keyByte child
    pure grown
  else do
    insertChild node keyByte child
    pure node

/-- `node->erase(key_byte); if (size() < min_size()) node = shrink(node).first;` for the types above
`_Node_4`. -/
def eraseShrinking (node : Addr) (keyByte : Byte) : Run H K V n Addr := do
  eraseChild node keyByte
  let size ← sizeOf node
  let minSize ← minSizeOf node
  let type ← getType node
  if size < minSize ∧ type ≠ .node4 then do
    let answer ← shrink node
    pure answer.1
  else pure node

/-- What a child of the node at `a` is: an object of its own. -/
def Attachable (s : St H K V n) (a c : Addr) : Prop := c ≠ a ∧ ∃ cell, s.mem.get c = some cell

/-- **What happens elsewhere** between two calls of a node. -/
structure Elsewhere (s s' : St H K V n) (a : Addr) (m : Byte → Option Addr) : Prop where
  node : ∀ p h l, s.mem.get a = some ⟨p, .inner h l⟩ → ∃ p' h', s'.mem.get a = some ⟨p', .inner h' l⟩
  live : ∀ b c, m b = some c → ∃ cell, s'.mem.get c = some cell

/-- **The runs on a node**: the state, the address of the node and the reference map of its children. A
node keeps at least one child, a child that is deleted is the child of one byte only, and the allocation of
a grow or shrink does not fail. -/
inductive NodeRun : St H K V n → Addr → (Byte → Option Addr) → Prop
  | start {s : St H K V n} {a c : Addr} {p : Option Addr} {h : H} {node4 : Node4} {b : Byte} :
      s.mem.get a = some ⟨p, .inner h (.node4 node4)⟩ → node4.count = 1 → node4.firstKey = b →
      node4.childAt 0 = .ok c → Attachable s a c →
      NodeRun s a (Function.update (fun _ => none) b (some c))
  | insert {s s' : St H K V n} {a a' c : Addr} {m : Byte → Option Addr} {b : Byte} :
      NodeRun s a m → m b = none → Attachable s a c → s.mem.failAt ≠ some s.mem.next →
      insertGrowing a b c s = .ok a' s' → NodeRun s' a' (Function.update m b (some c))
  | erase {s s' : St H K V n} {a a' c : Addr} {m : Byte → Option Addr} {b : Byte} :
      NodeRun s a m → m b = some c → (∀ b', m b' = some c → b' = b) → (∃ b', b' ≠ b ∧ m b' ≠ none) →
      s.mem.failAt ≠ some s.mem.next → eraseShrinking a b s = .ok a' s' →
      NodeRun s' a' (Function.update m b none)
  | update {s s' : St H K V n} {a c c' : Addr} {m : Byte → Option Addr} {b : Byte} :
      NodeRun s a m → m b = some c → Attachable s a c' → replaceChild a b c' s = .ok ⟨⟩ s' →
      NodeRun s' a (Function.update m b (some c'))
  | other {s s' : St H K V n} {a : Addr} {m : Byte → Option Addr} :
      NodeRun s a m → Elsewhere s s' a m → NodeRun s' a m

end CppArt
