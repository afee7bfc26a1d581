/-
**The two trees side by side.**

The same calls are made on an `ar_tree` and on an `ar_prefix_tree`. `Lockstep` are the pairs of states
that are reached, `Compresses` says that the second tree is the path compression of the first: a node
of the second stands for a node of the first that has several children, and its prefix for the chain of
nodes with one child above that.
-/

import CppArt.Model.Shape

namespace CppArt

variable {K V : Type} {n : ℕ}

/-! ### The same calls -/

/-- The same call on both trees. Iterators are the same if they point to elements with the same key. -/
inductive SameCall (tr : Traits K V n) (s : ArTree.State K V n) (s' : ArPrefixTree.State K V n) :
    Call K V → Call K V → Prop
  | insert (x : V) : SameCall tr s s' (.insert x) (.insert x)
  | emplace (x : V) : SameCall tr s s' (.emplace x) (.emplace x)
  | erase (k : K) : SameCall tr s s' (.erase k) (.erase k)
  | eraseAt (it it' : Addr) (v v' : V) (stored : Stored s it v) (stored' : Stored s' it' v')
      (key : tr.keyOf v = tr.keyOf v') : SameCall tr s s' (.eraseAt it) (.eraseAt it')
  | clear : SameCall tr s s' .clear .clear

/-- **The states after the same calls** on an `ar_tree` and an `ar_prefix_tree` that start empty. -/
inductive Lockstep (tr : Traits K V n) : ArTree.State K V n → ArPrefixTree.State K V n → Prop
  | start {mem : Memory (Cell DepthHeader V)} {mem' : Memory (Cell PrefixHeader V)}
      {s : ArTree.State K V n} {s' : ArPrefixTree.State K V n} (calm : mem.failAt = none)
      (calm' : mem'.failAt = none)
      (run : init ⟨mem, Tree.uninitialised tr.defaultTransform⟩ = .ok ⟨⟩ s)
      (run' : init ⟨mem', Tree.uninitialised tr.defaultTransform⟩ = .ok ⟨⟩ s') : Lockstep tr s s'
  | call {s t : ArTree.State K V n} {s' t' : ArPrefixTree.State K V n} {call call' : Call K V}
      {answer answer' : Answer} (before : Lockstep tr s s') (same : SameCall tr s s' call call')
      (run : perform tr call s = .ok answer t) (run' : perform tr call' s' = .ok answer' t') :
      Lockstep tr t t'

/-! ### Path compression -/

/-- The second node is reached from the first through nodes with one child; the list has the key bytes
of those nodes. -/
inductive OneWay {H : Type} (mem : Memory (Cell H V)) : Addr → List Byte → Addr → Prop
  | refl (a : Addr) : OneWay mem a [] a
  | step {a c x : Addr} {p : Option Addr} {h : H} {l : Layout} {b : Byte} {bytes : List Byte}
      (cell : mem.get a = some ⟨p, .inner h l⟩) (one : l.count = 1) (slot : l.find b = .ok (some c))
      (rest : OneWay mem c bytes x) : OneWay mem a (b :: bytes) x

/-- **The nodes with one child directly above a node**: the list has their key bytes, from the highest
to the lowest, and there is no further such node above the highest. -/
def OneWayAbove {H : Type} (mem : Memory (Cell H V)) (a : Addr) (bytes : List Byte) : Prop :=
  ∃ top parent body, OneWay mem top bytes a ∧ mem.get top = some ⟨some parent, body⟩ ∧
    ∀ p h l, mem.get parent = some ⟨p, .inner h l⟩ → l.count ≠ 1

/-- **Corresponding nodes**: an inner node of the `ar_tree` with several children and an inner node of
the `ar_prefix_tree`, with the same keys below them. -/
structure Twin (tr : Traits K V n) (s : ArTree.State K V n) (s' : ArPrefixTree.State K V n)
    (a a' : Addr) : Prop where
  several : ∃ h l, IsInner s a h l ∧ 2 ≤ l.count
  inner : ∃ h' l', IsInner s' a' h' l'
  keys : keysBelow tr s.mem a = keysBelow tr s'.mem a'

/-- **Corresponding subtrees**: leaves with the same value, or a chain of nodes with one child and the
node that corresponds to the top of the other subtree. -/
def Leads (tr : Traits K V n) (s : ArTree.State K V n) (s' : ArPrefixTree.State K V n)
    (c c' : Addr) : Prop :=
  (∃ p p' v, s.mem.get c = some ⟨p, .leaf v⟩ ∧ s'.mem.get c' = some ⟨p', .leaf v⟩) ∨
    ∃ bytes x, OneWay s.mem c bytes x ∧ Twin tr s s' x c'

/-- What corresponding nodes have in common. -/
structure Alike (tr : Traits K V n) (s : ArTree.State K V n) (s' : ArPrefixTree.State K V n)
    (a : Addr) (h : DepthHeader) (l : Layout) (h' : PrefixHeader) (l' : Layout) : Prop where
  type : l.getType = l'.getType
  position : h.depth = h'.depth + h'.prefixLength
  bytes : l.branchBytes = l'.branchBytes
  children : ∀ b c c', l.find b = .ok (some c) → l'.find b = .ok (some c') → Leads tr s s' c c'
  chain : ∃ bytes, OneWayAbove s.mem a bytes ∧ h'.prefixLength = bytes.length ∧
    ∀ i < min h'.prefixLength maxPrefixLength, h'.stored[i]? = bytes[i]?

/-- **The `ar_prefix_tree` is the path compression of the `ar_tree`.** -/
structure Compresses (tr : Traits K V n) (s : ArTree.State K V n) (s' : ArPrefixTree.State K V n) :
    Prop where
  roots : (s.tree.root = none ∧ s'.tree.root = none) ∨
    ∃ r r', s.tree.root = some r ∧ s'.tree.root = some r' ∧ Leads tr s s' r r'
  twin : ∀ a h l, IsInner s a h l → 2 ≤ l.count → ∃! a', Twin tr s s' a a'
  twin' : ∀ a' h' l', IsInner s' a' h' l' → ∃! a, Twin tr s s' a a'
  alike : ∀ a a' h l h' l', Twin tr s s' a a' → IsInner s a h l → IsInner s' a' h' l' →
    Alike tr s s' a h l h' l'

end CppArt
