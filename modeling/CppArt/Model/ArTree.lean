/-
**`ar_tree`: the tree without path compression.**

An inner node branches on the byte at its `_depth`, and the depth of a child is one more. Two keys
that share a path hang below a chain of nodes with one child. An erasure removes the part of the
chain that has lost its reason to exist.

`_depth` is an `int32_t` and bounded by the size of a key; it is a natural number here.
-/

import CppArt.Model.Tree

namespace CppArt

/-- The header of an inner node of `ar_tree`: `_depth`. It is an `int32_t` in the source and a number
here, so keys are taken to be shorter than 2^31 bytes. -/
structure DepthHeader where
  depth : ℕ
deriving DecidableEq, Repr

instance : Header DepthHeader where
  branch header := header.depth

variable {K V : Type} {n : ℕ}

namespace ArTree

/-- The loop that inserts nodes with one child until the keys differ, for `j` from `limit - steps`
to `limit`. -/
def tiebreak (existingLeaf : Addr) (existingKey key : Key n) :
    ℕ → ℕ → Addr → Run DepthHeader K V n (Addr × ℕ)
  | 0, _, _ => throw .unreachable
  | steps + 1, j, current => do
      let existingByte ← chunkAt existingKey j
      let keyByte ← chunkAt key j
      if existingByte = keyByte then do
        let nextByte ← chunkAt existingKey ((j + 1 : ℕ) : ℤ)
        let newChild ← newOneWay existingLeaf nextByte (⟨j + 1⟩ : DepthHeader)
        replaceChild current existingByte newChild
        tiebreak existingLeaf existingKey key steps (j + 1) newChild
      else pure (current, j)

/-- A leaf with another key is replaced by a chain of `_Node_4`. -/
def splitLeaf (limit : ℕ) (existingLeaf : Addr) (existingKey key : Key n) (depth : ℕ) :
    Run DepthHeader K V n (Addr × ℕ) := do
  let keyByte ← chunkAt existingKey depth
  let node ← newOneWay existingLeaf keyByte (⟨depth⟩ : DepthHeader)
  let parent ← deref (← parentOf node)
  updateChildPtr parent node existingKey
  tiebreak existingLeaf existingKey key (limit - depth) depth node

/-- The inner loop of `shrink_after_erase`: a leaf moves up over its one-way parents. The first
component tells whether the function returns. -/
def hoist (key : Key n) (depth : ℤ) : ℕ → Addr → ℤ → Run DepthHeader K V n (Bool × ℤ)
  | 0, _, _ => throw .recursion
  | steps + 1, node, j => do
      if (← isLeaf node) = false then pure (false, j)
      else do
        let parent ← deref (← parentOf node)
        let size ← sizeOf parent
        if size ≤ 1 ∧ depth - j ≥ -1 then do
          let tree ← this
          if (← getType parent) = .dummyNode then do
            setParent node (some tree.dummyNode)
            pure (true, j)
          else do
            let grandparent ← deref (← parentOf parent)
            if (← getType grandparent) = .dummyNode then do
              setParent node (some tree.dummyNode)
              delete parent
              pure (true, j)
            else do
              let keyByte ← chunkAt key (depth - j - 1)
              replaceChild grandparent keyByte node
              setParent node (some grandparent)
              delete parent
              hoist key depth steps node (j + 1)
        else pure (false, j)

/-- The outer loop of `shrink_after_erase`. -/
def shrinkLoop (key : Key n) (depth : ℤ) : ℕ → Addr → ℤ → Run DepthHeader K V n Addr
  | 0, _, _ => throw .recursion
  | steps + 1, node, j => do
      let size ← sizeOf node
      let minSize ← minSizeOf node
      if size < minSize then do
        let (shrunk, changed) ← shrink node
        if changed then do
          let (returned, j) ← hoist key depth (levels n) shrunk j
          if returned then pure shrunk else shrinkLoop key depth steps shrunk j
        else pure node
      else pure node

/-- `shrink_after_erase`. -/
def shrinkAfterErase (node : Addr) (depth : ℤ) (key : Key n) : Run DepthHeader K V n Addr :=
  shrinkLoop key depth (levels n) node 1

/-- `fix_after_erase`. -/
def fixAfterErase (node : Addr) (key : Key n) : Run DepthHeader K V n Unit := do
  let header ← headerOf node
  let shrunkNode ← shrinkAfterErase node header.depth key
  if shrunkNode = node then pure ()
  else do
    let parent ← deref (← parentOf shrunkNode)
    updateChildPtr parent shrunkNode key

end ArTree

instance : Variant DepthHeader where
  enter _ node _ depth := pure (node, depth)
  splitLeaf := ArTree.splitLeaf
  posLimit keySize := keySize + 1
  pass _ _ _ depth := pure (some depth)
  passStored _ _ depth := pure (some depth)
  fixAfterErase := ArTree.fixAfterErase
  copied48 header := header

/-- The memory and one `ar_tree`. -/
abbrev ArTree.State (K V : Type) (n : ℕ) := St DepthHeader K V n

end CppArt
