/-
**The shape of a tree.**

The vocabulary in which the shape of a container is stated: the nodes that are reached from the root,
the keys of the leaves below a node, the node at the end of a path of branch bytes, and what two trees
have in common when they differ in addresses and in the numbering of slots only.
-/

import CppArt.Model.History

namespace CppArt

variable {H K V : Type} {n : ℕ}

/-- The node is reached from the root. -/
def Reached (s : St H K V n) (a : Addr) : Prop := ∃ r, s.tree.root = some r ∧ Below s.mem r a

/-- **An inner node of the tree**, with its header and its layout. -/
def IsInner (s : St H K V n) (a : Addr) (h : H) (l : Layout) : Prop :=
  Reached s a ∧ ∃ p, s.mem.get a = some ⟨p, .inner h l⟩

/-- **The transformed keys of the leaves below a node.** -/
def keysBelow (tr : Traits K V n) (mem : Memory (Cell H V)) (a : Addr) : Set (Key n) :=
  {w | ∃ it p v, Below mem a it ∧ mem.get it = some ⟨p, .leaf v⟩ ∧ tr.keyOf v = w}

/-! ### Paths -/

/-- The node that is reached through the children of the bytes of a path. -/
def follow (mem : Memory (Cell H V)) : Addr → List Byte → Option Addr
  | a, [] => some a
  | a, b :: path =>
      match mem.get a with
      | some ⟨_, .inner _ l⟩ =>
          match l.find b with
          | .ok (some c) => follow mem c path
          | _ => none
      | _ => none

/-- The node that is reached from the root. -/
def nodeAt (s : St H K V n) (path : List Byte) : Option Addr :=
  s.tree.root.bind fun r => follow s.mem r path

/-- The key begins with the bytes of a path. -/
def Begins (path : List Byte) (w : Key n) : Prop := path <+: w.chunks.toList

/-- What is seen of a node without its address, its slots and its other pointers. -/
inductive View (H : Type) (n : ℕ)
  | leaf (key : Key n)
  | inner (header : H) (type : NodeType)

/-- The view of a node; `fields` are the fields of a header that are in use. -/
def viewOf (fields : H → H) (tr : Traits K V n) : Cell H V → Option (View H n)
  | ⟨_, .leaf v⟩ => some (.leaf (tr.keyOf v))
  | ⟨_, .inner h l⟩ => some (.inner (fields h) l.getType)
  | _ => none

/-- **The view of a tree**: what is seen at the end of each path. -/
def viewAt (fields : H → H) (tr : Traits K V n) (s : St H K V n) (path : List Byte) :
    Option (View H n) :=
  (nodeAt s path).bind fun a => (s.mem.get a).bind (viewOf fields tr)

/-- The header without the entries of `_prefix` that are not in use. -/
def PrefixHeader.used (h : PrefixHeader) : PrefixHeader :=
  ⟨h.depth, h.prefixLength, Vector.ofFn fun i => if i.val < h.prefixLength then h.stored[i] else 0⟩

end CppArt
