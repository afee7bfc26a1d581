/-
**Copy construction and copy assignment.**

A copy constructor copies the header and the key bytes of a node and then, in `copy_children`, copies
its children one by one: it asks a child for its type, copy-constructs a node of that type and
stores it in the slot of the child. In `_Node_4`, `_Node_16` and `_Node_256` the child asked and the
child copied are the same. `_Node_48` asks `__x.children[child_index[i]]` and copies `__x.children[i]`,
for a byte `i`. In `ar_prefix_tree` its copy constructor also leaves the prefix out.
-/

import CppArt.Model.Tree

namespace CppArt

/-- An element of an array of child pointers. -/
def childSlot {size : ℕ} (children : Vector (Option Addr) size) (i : ℕ) :
    Except Fault (Option Addr) :=
  match children[i]? with
  | some child => .ok child
  | none => .error .outOfBounds

/-- One step of `copy_children`. -/
structure CopyStep where
  /-- the index the copy is stored at -/
  slot : ℕ
  /-- the child whose `get_type()` is asked -/
  asked : Except Fault (Option Addr)
  /-- the child that is copied -/
  copied : Except Fault (Option Addr)

namespace Layout

/-- The steps of `copy_children`. -/
def copySteps : Layout → List CopyStep
  | .node4 nd => (List.range nd.count).map fun i =>
      ⟨i, childSlot nd.children i, childSlot nd.children i⟩
  | .node16 nd => (List.range nd.count).map fun i =>
      ⟨i, childSlot nd.children i, childSlot nd.children i⟩
  | .node48 nd => nd.usedBytes.map fun i =>
      ⟨(nd.childIndex.read i).val, nd.slot i, childSlot nd.children i.val⟩
  | .node256 nd => nd.usedBytes.map fun i =>
      ⟨i.val, childSlot nd.children i.val, childSlot nd.children i.val⟩

/-- The count and the key bytes, with `children{}`. -/
def withoutChildren : Layout → Layout
  | .node4 nd => .node4 { nd with children := Vector.replicate 4 none }
  | .node16 nd => .node16 { nd with children := Vector.replicate 16 none }
  | .node48 nd => .node48 { nd with children := Vector.replicate 48 none }
  | .node256 nd => .node256 { nd with children := Vector.replicate 256 none }

/-- `children[slot] = child;` -/
def setSlot (slot : ℕ) (child : Addr) : Layout → Layout
  | .node4 nd => .node4 { nd with children := nd.children.setIfInBounds slot (some child) }
  | .node16 nd => .node16 { nd with children := nd.children.setIfInBounds slot (some child) }
  | .node48 nd => .node48 { nd with children := nd.children.setIfInBounds slot (some child) }
  | .node256 nd => .node256 { nd with children := nd.children.setIfInBounds slot (some child) }

end Layout

variable {H K V : Type} {n : ℕ} [Variant H]

/-- The header a copy constructor passes on. -/
def copiedHeader (type : NodeType) (header : H) : H :=
  if type = .node48 then Variant.copied48 header else header

/-- `children[slot] = child; children[slot]->_parent = this;` -/
def storeCopy (node : Addr) (slot : ℕ) (child : Addr) : Run H K V n Unit := do
  let cell ← load node
  match cell.body with
  | .inner header layout => store node { cell with body := .inner header (layout.setSlot slot child) }
  | _ => throw .badCast
  setParent child (some node)

/-- `new T(*static_cast<T *>(x))` for the class `T` of a node type. -/
def copyAs : ℕ → NodeType → Addr → Run H K V n Addr
  | 0, _, _ => throw .recursion
  | calls + 1, type, x => do
      let cell ← load x
      match cell.body with
      | .leaf value => if type = .leaf then new ⟨none, .leaf value⟩ else throw .badCast
      | .inner header layout =>
          if layout.getType = type then do
            let node ← new ⟨cell.parent, .inner (copiedHeader type header) layout.withoutChildren⟩
            onThrow
              (layout.copySteps.forM fun step => do
                let asked ← deref (← Exec.lift step.asked)
                let childType ← getType asked
                if childType = .dummyNode then throw .unreachable
                else do
                  let copied ← deref (← Exec.lift step.copied)
                  let child ← copyAs calls childType copied
                  storeCopy node step.slot child)
              (delete node)
            pure node
          else throw .badCast
      | _ => throw .badCast

/-- `copy_node`. -/
def copyNode (x : Addr) : Run H K V n Addr := do
  let type ← getType x
  if type = .dummyNode then throw .unreachable else copyAs (levels n) type x

/-- The copy constructor, after `_M_key_transform` has been default-constructed. -/
def copyConstruct (source : Tree K n) : Run H K V n Unit := do
  if source.count = 0 then init
  else do
    let sourceRoot ← deref source.root
    let root ← copyNode sourceRoot
    setRoot (some root)
    updateCount fun _ => source.count
    let dummy ← newDummy
    modify fun s => { s with tree := { s.tree with dummyNode := dummy } }
    setParent root (some dummy)
    linkDummy
    modify fun s => { s with tree := { s.tree with keyTransform := source.keyTransform } }

/-- The copy assignment from another container. -/
def copyAssign (source : Tree K n) : Run H K V n Unit := do
  clear
  if source.count = 0 then init
  else do
    let sourceRoot ← deref source.root
    let root ← copyNode sourceRoot
    setRoot (some root)
    updateCount fun _ => source.count
    let tree ← this
    setParent root (some tree.dummyNode)
    linkDummy
    modify fun s => { s with tree := { s.tree with keyTransform := source.keyTransform } }

end CppArt
