/-
**Nodes in memory and their member functions.**

A node of either tree is a `Cell`: its `_parent` and, by its dynamic type, a value, the sentinel's
two pointers, or the fields of an inner node. The inner nodes of the two trees have the same arrays
and differ in their `Header` only, so everything that is the same text in `ar_tree.h` and
`ar_prefix_tree.h` is defined once, over the type `H` of headers.

A member function of a node is a function of the node's address. A virtual call dispatches on the
cell. The recursive ones (`minimum`, `maximum`, `successor`, `predecessor`, `clear`) carry the number
of calls that may be nested; `levels` of them are enough for any tree over keys of `n` bytes, and a
deeper recursion stops with `Fault.recursion`.
-/

import CppArt.Lib.Exec
import CppArt.Model.Layout

namespace CppArt

/-- What depends on the dynamic type of a node. -/
inductive Body (H V : Type)
  /-- `_Leaf` -/
  | leaf (value : V)
  /-- `_Base_Leaf`, the end leaf of a container -/
  | baseLeaf
  /-- `_Dummy_Node`: `_root` and `_leaf` -/
  | dummy (root : Option Addr) (leaf : Addr)
  /-- `_Node_4`, `_Node_16`, `_Node_48` or `_Node_256` -/
  | inner (header : H) (layout : Layout)

/-- A node in memory. -/
structure Cell (H V : Type) where
  parent : Option Addr
  body : Body H V

/-- The data members of `ar_tree` and `ar_prefix_tree`. -/
structure Tree (K : Type) (n : ℕ) where
  keyTransform : K → Key n
  count : ℕ
  dummyNode : Addr
  root : Option Addr

/-- What the trees use of their template arguments: `_KeyOfValue()`, `key_type()` and a
default-constructed `_Key_transform()`. A transformed key is the array `Key::chunks`. The source compares
transformed values with `==` where it searches, inserts and erases; that this is equality of their bytes,
as it is for integers and for arrays of bytes, is what the trees rely on and is assumed here. -/
structure Traits (K V : Type) (n : ℕ) where
  keyOfValue : V → K
  defaultKey : K
  defaultTransform : K → Key n

/-- The memory and the container `*this`. -/
structure St (H K V : Type) (n : ℕ) where
  mem : Memory (Cell H V)
  tree : Tree K n

/-- A member function of a container. -/
abbrev Run (H K V : Type) (n : ℕ) := EStateM Fault (St H K V n)

/-- The header of an inner node: `_depth` and, in `ar_prefix_tree`, the prefix. -/
class Header (H : Type) where
  /-- The index of the key byte a node branches on: `_depth` in `ar_tree`,
  `_depth + _prefix_length` in `ar_prefix_tree`. -/
  branch : H → ℕ

variable {H K V : Type} {n : ℕ}

/-! ### Memory access -/

/-- The object at an address. -/
def load (a : Addr) : Run H K V n (Cell H V) := fun s =>
  match s.mem.get a with
  | some cell => .ok cell s
  | none => .error .dangling s

/-- A pointer, dereferenced. -/
def deref : Option Addr → Run H K V n Addr
  | some a => pure a
  | none => throw .nullPointer

/-- The object at an address is overwritten. -/
def store (a : Addr) (cell : Cell H V) : Run H K V n Unit :=
  modify fun s => { s with mem := s.mem.set a cell }

/-- `new`. -/
def new (cell : Cell H V) : Run H K V n Addr := fun s =>
  if s.mem.failAt = some s.mem.next then .error .badAlloc { s with mem := s.mem.disarm }
  else .ok s.mem.next { s with mem := s.mem.alloc cell }

/-- `delete`. -/
def delete (a : Addr) : Run H K V n Unit := do
  let _ ← load a
  modify fun s => { s with mem := s.mem.free a }

/-- `catch (...) { cleanup; throw; }` -/
def onThrow {α : Type} (body : Run H K V n α) (cleanup : Run H K V n Unit) : Run H K V n α := fun s =>
  match body s with
  | .error .badAlloc thrown => (do cleanup; throw .badAlloc : Run H K V n α) thrown
  | result => result

/-- `_parent`. -/
def parentOf (a : Addr) : Run H K V n (Option Addr) := do
  let cell ← load a
  pure cell.parent

/-- An assignment to `_parent`. -/
def setParent (a : Addr) (parent : Option Addr) : Run H K V n Unit := do
  let cell ← load a
  store a { cell with parent := parent }

/-- `static_cast<Leaf_ptr>(a)->_value`. -/
def leafValue (a : Addr) : Run H K V n V := do
  let cell ← load a
  match cell.body with
  | .leaf value => pure value
  | _ => throw .badCast

/-- The header of `static_cast<Inner_Node_ptr>(a)`. -/
def headerOf (a : Addr) : Run H K V n H := do
  let cell ← load a
  match cell.body with
  | .inner header _ => pure header
  | _ => throw .badCast

/-- An assignment to the header of `static_cast<Inner_Node_ptr>(a)`. -/
def setHeader (a : Addr) (header : H) : Run H K V n Unit := do
  let cell ← load a
  match cell.body with
  | .inner _ layout => store a { cell with body := .inner header layout }
  | _ => throw .badCast

/-- `key.chunks[i]`. -/
def chunkAt (key : Key n) (i : ℤ) : Run H K V n Byte :=
  if 0 ≤ i ∧ i < n then pure (key.letter i.toNat) else throw .outOfBounds

/-! ### Virtual member functions -/

/-- `is_leaf`. -/
def isLeaf (a : Addr) : Run H K V n Bool := do
  let cell ← load a
  match cell.body with
  | .leaf _ => pure true
  | .baseLeaf => pure true
  | .dummy _ _ => pure false
  | .inner _ _ => pure false

/-- `get_type`. -/
def getType (a : Addr) : Run H K V n NodeType := do
  let cell ← load a
  match cell.body with
  | .leaf _ => pure .leaf
  | .baseLeaf => pure .leaf
  | .dummy _ _ => pure .dummyNode
  | .inner _ layout => pure layout.getType

/-- `size`. -/
def sizeOf (a : Addr) : Run H K V n ℕ := do
  let cell ← load a
  match cell.body with
  | .leaf _ => pure 1
  | .baseLeaf => pure 1
  | .dummy _ _ => pure 1
  | .inner _ layout => pure layout.count

/-- `min_size`. -/
def minSizeOf (a : Addr) : Run H K V n ℕ := do
  let cell ← load a
  match cell.body with
  | .leaf _ => pure 1
  | .baseLeaf => pure 1
  | .dummy _ _ => pure 0
  | .inner _ layout => pure layout.minSize

/-- `max_size`. -/
def maxSizeOf (a : Addr) : Run H K V n ℕ := do
  let cell ← load a
  match cell.body with
  | .leaf _ => pure 1
  | .baseLeaf => pure 1
  | .dummy _ _ => pure 0
  | .inner _ layout => pure layout.maxSize

/-- `find`: the child of a key byte. -/
def findChild (a : Addr) (keyByte : Byte) : Run H K V n (Option Addr) := do
  let cell ← load a
  match cell.body with
  | .inner _ layout => Exec.lift (layout.find keyByte)
  | _ => pure none

/-- `insert`: a child for a key byte. -/
def insertChild (a : Addr) (keyByte : Byte) (node : Addr) : Run H K V n Unit := do
  let cell ← load a
  match cell.body with
  | .inner header layout => do
      let layout ← Exec.lift (layout.insert keyByte node)
      store a { cell with body := .inner header layout }
  | _ => pure ()

/-- `erase`: the child of a key byte is deleted. -/
def eraseChild (a : Addr) (keyByte : Byte) : Run H K V n Unit := do
  let cell ← load a
  match cell.body with
  | .inner header layout => do
      let (child, layout) ← Exec.lift (layout.erase keyByte)
      match child with
      | some child => delete child
      | none => pure ()
      store a { cell with body := .inner header layout }
  | _ => pure ()

/-- `update_child_ptr`, the member function of a node. -/
def replaceChild (a : Addr) (keyByte : Byte) (node : Addr) : Run H K V n Unit := do
  let cell ← load a
  match cell.body with
  | .inner header layout => do
      let layout ← Exec.lift (layout.updateChildPtr keyByte node)
      store a { cell with body := .inner header layout }
  | .dummy _ leaf => store a { cell with body := .dummy (some node) leaf }
  | _ => pure ()

/-- The number of virtual calls that may be nested: a sentinel, an inner node for each key byte and
a leaf. -/
def levels (n : ℕ) : ℕ := n + 2

/-- `minimum` (upwards) and `maximum` (downwards). -/
def extremeFrom (dir : Dir) : ℕ → Addr → Run H K V n Addr
  | 0, _ => throw .recursion
  | calls + 1, a => do
      let cell ← load a
      match cell.body with
      | .leaf _ => pure a
      | .baseLeaf => pure a
      | .dummy _ leaf => pure leaf
      | .inner _ layout => do
          let child ← Exec.lift (layout.extremeChild dir)
          extremeFrom dir calls child

/-- `minimum` (upwards) and `maximum` (downwards). -/
def extreme (dir : Dir) (a : Addr) : Run H K V n Addr := extremeFrom dir (levels n) a

/-- `successor` (upwards) and `predecessor` (downwards). -/
def neighbourFrom [Header H] (dir : Dir) (key : Key n) : ℕ → Addr → Run H K V n Addr
  | 0, _ => throw .recursion
  | calls + 1, a => do
      let cell ← load a
      match cell.body with
      | .leaf _ => pure a
      | .baseLeaf => pure a
      | .dummy root leaf =>
          match dir, root with
          | .up, _ => pure leaf
          | .down, some root => extreme .down root
          | .down, none => pure leaf
      | .inner header layout => do
          let keyByte ← chunkAt key (Header.branch header)
          match ← Exec.lift (layout.childBeyond dir keyByte) with
          | some child => extreme dir child
          | none => do
              let parent ← deref cell.parent
              neighbourFrom dir key calls parent

/-- `successor` (upwards) and `predecessor` (downwards). -/
def neighbour [Header H] (dir : Dir) (key : Key n) (a : Addr) : Run H K V n Addr :=
  neighbourFrom dir key (levels n) a

/-- `clear`: every node below is deleted. -/
def clearBelow : ℕ → Addr → Run H K V n Unit
  | 0, _ => throw .recursion
  | calls + 1, a => do
      let cell ← load a
      match cell.body with
      | .inner _ layout =>
          layout.members.forM fun slot => do
            let child ← deref (← Exec.lift slot)
            clearBelow calls child
            delete child
      | _ => pure ()

/-! ### Grow and shrink -/

/-- `children[i]->_parent = this` for the children that a constructor walks over. -/
def adopt (node : Addr) (kids : List (Option Addr)) : Run H K V n Unit :=
  kids.forM fun kid => do
    let child ← deref kid
    setParent child (some node)

/-- `grow`. -/
def grow (oldNode : Addr) : Run H K V n Addr := do
  let cell ← load oldNode
  match cell.body with
  | .inner header layout => do
      let grown ← Exec.lift layout.grown
      let node ← new ⟨cell.parent, .inner header grown⟩
      adopt node layout.grownKids
      delete oldNode
      pure node
  | _ => throw .unreachable

/-- `shrink`. A `_Node_4` gives way to its only child if that is a leaf. -/
def shrink (oldNode : Addr) : Run H K V n (Addr × Bool) := do
  let cell ← load oldNode
  match cell.body with
  | .inner _ (.node4 node4) => do
      let child ← Exec.lift (node4.childAt 0)
      if ← isLeaf child then do
        setParent child cell.parent
        delete oldNode
        pure (child, true)
      else pure (oldNode, false)
  | .inner header layout => do
      let shrunk ← Exec.lift layout.shrunk
      let node ← new ⟨cell.parent, .inner header shrunk⟩
      adopt node layout.shrunkKids
      delete oldNode
      pure (node, true)
  | _ => throw .unreachable

/-- `new _Node_4(child, key_byte, depth, ..)`: a node with one child, in the place of the child. -/
def newOneWay (child : Addr) (keyByte : Byte) (header : H) : Run H K V n Addr := do
  let parent ← parentOf child
  let node ← new ⟨parent, .inner header (.oneWay keyByte child)⟩
  setParent child (some node)
  pure node

end CppArt
