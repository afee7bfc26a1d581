/-
**`ar_prefix_tree`: the tree with path compression.**

An inner node skips the `_prefix_length` bytes from its `_depth` on that all keys below it share, and
branches on the byte after them. Of these bytes the node stores the first eight; the others are read
from a leaf below it. `_prefix_length` is a `uint16_t`: every value written to it is reduced.
-/

import CppArt.Model.Tree

namespace CppArt

/-- `MAX_PREFIX_LENGTH`. -/
def maxPrefixLength : ℕ := 8

/-- The header of an inner node of `ar_prefix_tree`: `_depth`, `_prefix_length` and `_prefix`. As in
`ar_tree`, `_depth` is an `int32_t`, and keys are taken to be shorter than 2^31 bytes. -/
structure PrefixHeader where
  depth : ℕ
  prefixLength : ℕ
  stored : Vector Byte maxPrefixLength
deriving DecidableEq, Repr

instance : Header PrefixHeader where
  branch header := header.depth + header.prefixLength

variable {K V : Type} {n : ℕ}

/-- The conversion to `uint16_t`. -/
def uint16 (x : ℤ) : ℕ := (x % 65536).toNat

/-- `std::copy(src + first, src + last, dst + dest)` between two arrays. -/
def copyRange {α : Type} {size size' : ℕ} (src : Vector α size) (first last : ℕ)
    (dst : Vector α size') (dest : ℕ) : Except Fault (Vector α size') :=
  if last ≤ size ∧ dest + (last - first) ≤ size' then
    .ok (Vector.ofFn fun i =>
      if dest ≤ i.val ∧ i.val < dest + (last - first) then (src[first + (i.val - dest)]?).getD (dst.get i)
      else dst.get i)
  else .error .outOfBounds

namespace ArPrefixTree

/-- `_Inner_Node(parent, count, depth)`: no prefix. -/
def plainHeader (depth : ℕ) : PrefixHeader := ⟨depth, 0, Vector.replicate _ 0⟩

/-- The key of the minimum below a node, by `_Key_transform()`. -/
def minKey (tr : Traits K V n) (node : Addr) : Run PrefixHeader K V n (Key n) := do
  let leaf ← extreme .up node
  let value ← leafValue leaf
  pure (tr.defaultTransform (tr.keyOfValue value))

/-- The first of `count` positions from `pos` on where the key and a sequence of bytes differ. -/
def mismatchFrom (key : Key n) (depth : ℕ) (byteAt : ℕ → Run PrefixHeader K V n Byte) :
    ℕ → ℕ → Run PrefixHeader K V n (Option ℕ)
  | 0, _ => pure none
  | count + 1, pos => do
      let keyByte ← chunkAt key ((depth + pos : ℕ) : ℤ)
      if keyByte ≠ (← byteAt pos) then pure (some pos)
      else mismatchFrom key depth byteAt count (pos + 1)

/-- `_prefix[pos]`. -/
def storedAt (header : PrefixHeader) (pos : ℕ) : Run PrefixHeader K V n Byte :=
  match header.stored[pos]? with
  | some storedByte => pure storedByte
  | none => throw .outOfBounds

/-- `pes_prefix_mismatch_pos`. -/
def pesPrefixMismatchPos (node : Addr) (key : Key n) : Run PrefixHeader K V n ℕ := do
  let header ← headerOf node
  match ← mismatchFrom key header.depth (storedAt header)
    (min header.prefixLength maxPrefixLength) 0 with
  | some pos => pure pos
  | none => pure header.prefixLength

/-- `prefix_mismatch_pos`. -/
def prefixMismatchPos (tr : Traits K V n) (node : Addr) (key : Key n) :
    Run PrefixHeader K V n ℕ := do
  let header ← headerOf node
  match ← mismatchFrom key header.depth (storedAt header)
    (min header.prefixLength maxPrefixLength) 0 with
  | some pos => pure pos
  | none =>
      if maxPrefixLength < header.prefixLength then do
        let minKey ← minKey tr node
        match ← mismatchFrom key header.depth
          (fun pos => chunkAt minKey ((header.depth + pos : ℕ) : ℤ))
          (header.prefixLength - maxPrefixLength) maxPrefixLength with
        | some pos => pure pos
        | none => pure header.prefixLength
      else pure header.prefixLength

/-- `split_prefix_into_parent`. -/
def splitPrefixIntoParent (tr : Traits K V n) (node : Addr) (mismatchPos : ℕ) :
    Run PrefixHeader K V n Addr := do
  let header ← headerOf node
  if header.prefixLength < maxPrefixLength then do
    let keyByte ← storedAt header mismatchPos
    let newNode ← newOneWay node keyByte (plainHeader header.depth)
    let front ← Exec.lift (copyRange header.stored 0 mismatchPos (plainHeader header.depth).stored 0)
    setHeader newNode ⟨header.depth, uint16 mismatchPos, front⟩
    let rest ← Exec.lift (memmove header.stored (mismatchPos + 1) maxPrefixLength 0)
    setHeader node ⟨header.depth + (mismatchPos + 1),
      uint16 (header.prefixLength - (mismatchPos + 1)), rest⟩
    pure newNode
  else do
    let minKey ← minKey tr node
    let keyByte ← chunkAt minKey ((header.depth + mismatchPos : ℕ) : ℤ)
    let newNode ← newOneWay node keyByte (plainHeader header.depth)
    setHeader newNode ⟨header.depth, uint16 mismatchPos, header.stored⟩
    let start := header.depth + mismatchPos + 1
    let prefixLength := min maxPrefixLength (header.prefixLength - (mismatchPos + 1))
    let rest ← Exec.lift (copyRange minKey.chunks start (start + prefixLength) header.stored 0)
    setHeader node ⟨header.depth + (mismatchPos + 1),
      uint16 (header.prefixLength - (mismatchPos + 1)), rest⟩
    pure newNode

/-- Insertion reaches an inner node: a prefix the key departs from is split. -/
def enter (tr : Traits K V n) (current : Addr) (key : Key n) (depth : ℕ) :
    Run PrefixHeader K V n (Addr × ℕ) := do
  let pos ← prefixMismatchPos tr current key
  let header ← headerOf current
  if pos < header.prefixLength then do
    let newNode ← splitPrefixIntoParent tr current pos
    let parent ← deref (← parentOf newNode)
    updateChildPtr parent newNode key
    pure (newNode, depth + pos)
  else pure (current, depth + pos)

/-- An erasure or an ordered search reaches an inner node. -/
def pass (tr : Traits K V n) (current : Addr) (key : Key n) (depth : ℕ) :
    Run PrefixHeader K V n (Option ℕ) := do
  let pos ← prefixMismatchPos tr current key
  let header ← headerOf current
  if pos < header.prefixLength then pure none else pure (some (depth + pos))

/-- `find` reaches an inner node. -/
def passStored (current : Addr) (key : Key n) (depth : ℕ) :
    Run PrefixHeader K V n (Option ℕ) := do
  let pos ← pesPrefixMismatchPos current key
  let header ← headerOf current
  if pos < header.prefixLength then pure none else pure (some (depth + pos))

/-- The loop over `j` from `limit - steps` to `limit` that searches the tiebreaker, and the node
inserted there. -/
def tiebreak (existingLeaf : Addr) (existingKey key : Key n) (depth : ℕ) :
    ℕ → ℕ → Run PrefixHeader K V n (Addr × ℕ)
  | 0, _ => throw .unreachable
  | steps + 1, j => do
      let keyByte ← chunkAt key j
      let existingByte ← chunkAt existingKey j
      if keyByte ≠ existingByte then do
        let inner ← newOneWay existingLeaf existingByte (plainHeader depth)
        let parent ← deref (← parentOf inner)
        updateChildPtr parent inner existingKey
        let prefixLength := uint16 ((j : ℤ) - depth)
        let front ← Exec.lift (copyRange key.chunks depth (depth + min prefixLength maxPrefixLength)
          (plainHeader depth).stored 0)
        setHeader inner ⟨depth, prefixLength, front⟩
        pure (inner, j)
      else tiebreak existingLeaf existingKey key depth steps (j + 1)

/-- A leaf with another key is replaced by one `_Node_4` with the shared bytes as its prefix. -/
def splitLeaf (limit : ℕ) (existingLeaf : Addr) (existingKey key : Key n) (depth : ℕ) :
    Run PrefixHeader K V n (Addr × ℕ) :=
  tiebreak existingLeaf existingKey key depth (limit - depth) depth

/-- `compress_node_into_child`. -/
def compressNodeIntoChild (node : Addr) : Run PrefixHeader K V n Addr := do
  let cell ← load node
  match cell.body with
  | .inner header (.node4 node4) => do
      let child ← Exec.lift (node4.childAt 0)
      if (← getType child) = .leaf then do
        setParent child cell.parent
        if header.depth = 0 then replaceRoot child else pure ()
        delete node
        pure child
      else do
        let childHeader ← headerOf child
        let stored ← Exec.lift
          (if header.prefixLength < maxPrefixLength then do
            let shifted ← memmove childHeader.stored 0
              (maxPrefixLength - header.prefixLength - 1) (header.prefixLength + 1)
            let front ← copyRange header.stored 0 header.prefixLength shifted 0
            .ok (front.setIfInBounds header.prefixLength node4.firstKey)
          else .ok header.stored)
        setHeader child ⟨header.depth,
          uint16 (childHeader.prefixLength + (header.prefixLength + 1)), stored⟩
        setParent child cell.parent
        delete node
        pure child
  | _ => throw .badCast

/-- `fix_after_erase`. -/
def fixAfterErase (node : Addr) (key : Key n) : Run PrefixHeader K V n Unit := do
  let size ← sizeOf node
  let minSize ← minSizeOf node
  let node ← (if size < minSize then do
      let (shrunk, _) ← shrink node
      let parent ← deref (← parentOf shrunk)
      updateChildPtr parent shrunk key
      pure shrunk
    else pure node)
  let type ← getType node
  let size ← sizeOf node
  if type = .node4 ∧ size = 1 then do
    let child ← compressNodeIntoChild node
    let parent ← deref (← parentOf child)
    updateChildPtr parent child key
  else pure ()

end ArPrefixTree

instance : Variant PrefixHeader where
  enter := ArPrefixTree.enter
  splitLeaf := ArPrefixTree.splitLeaf
  posLimit keySize := keySize
  pass := ArPrefixTree.pass
  passStored := ArPrefixTree.passStored
  fixAfterErase := ArPrefixTree.fixAfterErase
  copied48 header := ArPrefixTree.plainHeader header.depth

/-- The memory and one `ar_prefix_tree`. -/
abbrev ArPrefixTree.State (K V : Type) (n : ℕ) := St PrefixHeader K V n

end CppArt
