/-
**Shifts inside a node, done by any library.**

The nodes move ranges of their arrays with `std::move(first, last, dest)`, which has a precondition: `dest`
is not inside `[first, last)`. A library does what the standard specifies where the precondition is met,
and anything elsewhere (`Library`). `memmove`, the moves element by element from the first to the last, and
a library that stops where the precondition is violated are three of them.

The member functions that shift, and those that call them, are given once more with the library as a
parameter; the others are the same. `ShiftRun` are the runs of a container over a library whose calls are
`Apart`: no insertion moves two or more larger keys of a `_Node_4` or `_Node_16`, and no erasure merges an
inner node into an inner child across a prefix shorter than three bytes.
-/

import CppArt.Lib.Moves
import CppArt.Model.Shape

namespace CppArt

variable {H K V : Type} {n : ℕ}

/-! ### Libraries -/

/-- `std::move(first, last, dest)` within one array, element by element from the first to the last. -/
def moveForward {α : Type} {size : ℕ} (a : Vector α size) (first last dest : ℕ) :
    Except Fault (Vector α size) :=
  if last ≤ size ∧ dest + (last - first) ≤ size then .ok (assignEach (last - first) a first dest)
  else .error .outOfBounds

/-- **A library**, by what its `std::move` does within one array. -/
structure Library where
  move {α : Type} {size : ℕ} (a : Vector α size) (first last dest : ℕ) : Except Fault (Vector α size)
  /-- What the standard specifies. -/
  move_eq {α : Type} {size : ℕ} (a : Vector α size) {first last dest : ℕ} :
    Movable first last dest → move a first last dest = moveForward a first last dest

/-- The library that moves element by element, whether the precondition is met or not. -/
def Library.forward : Library := ⟨moveForward, fun _ => fun _ => rfl⟩

/-- A library that stops where the precondition is violated. -/
def Library.strict (fault : Fault) : Library where
  move a first last dest := if Movable first last dest then moveForward a first last dest else .error fault
  move_eq _ := fun movable => if_pos movable

/-! ### The member functions that shift -/

namespace SortedNode

variable {cap : ℕ}

/-- `insert`. -/
def insertBy (lib : Library) (nd : SortedNode cap) (keyByte : Byte) (node : Addr) :
    Except Fault (SortedNode cap) :=
  let pos := nd.lowerPos keyByte
  if pos < nd.count then do
    let keys ← lib.move nd.keys pos nd.count (pos + 1)
    let children ← lib.move nd.children pos nd.count (pos + 1)
    place ⟨nd.count, keys, children⟩ pos keyByte node
  else nd.place pos keyByte node

/-- `erase`. -/
def eraseBy (lib : Library) (nd : SortedNode cap) (keyByte : Byte) :
    Except Fault (Option Addr × SortedNode cap) :=
  let pos := nd.lowerPos keyByte
  if pos < nd.count then do
    let keys ← lib.move nd.keys (pos + 1) nd.count pos
    let children ← lib.move nd.children (pos + 1) nd.count pos
    .ok ((nd.children[pos]?).join, ⟨nd.count - 1, keys, children⟩)
  else .ok (none, nd)

end SortedNode

namespace Layout

def insertBy (lib : Library) : Layout → Byte → Addr → Except Fault Layout
  | .node4 nd, keyByte, node => (nd.insertBy lib keyByte node).map .node4
  | .node16 nd, keyByte, node => (nd.insertBy lib keyByte node).map .node16
  | .node48 nd, keyByte, node => (nd.insert keyByte node).map .node48
  | .node256 nd, keyByte, node => .ok (.node256 (nd.insert keyByte node))

def eraseBy (lib : Library) : Layout → Byte → Except Fault (Option Addr × Layout)
  | .node4 nd, keyByte => (nd.eraseBy lib keyByte).map (Prod.map id .node4)
  | .node16 nd, keyByte => (nd.eraseBy lib keyByte).map (Prod.map id .node16)
  | .node48 nd, keyByte => (nd.erase keyByte).map (Prod.map id .node48)
  | .node256 nd, keyByte => .ok (Prod.map id .node256 (nd.erase keyByte))

end Layout

/-- `insert`: a child for a key byte. -/
def insertChildBy (lib : Library) (a : Addr) (keyByte : Byte) (node : Addr) : Run H K V n Unit := do
  let cell ← load a
  match cell.body with
  | .inner header layout => do
      let layout ← Exec.lift (layout.insertBy lib keyByte node)
      store a { cell with body := .inner header layout }
  | _ => pure ()

/-- `erase`: the child of a key byte is deleted. -/
def eraseChildBy (lib : Library) (a : Addr) (keyByte : Byte) : Run H K V n Unit := do
  let cell ← load a
  match cell.body with
  | .inner header layout => do
      let (child, layout) ← Exec.lift (layout.eraseBy lib keyByte)
      match child with
      | some child => delete child
      | none => pure ()
      store a { cell with body := .inner header layout }
  | _ => pure ()

namespace ArPrefixTree

/-- `split_prefix_into_parent`. -/
def splitPrefixIntoParentBy (lib : Library) (tr : Traits K V n) (node : Addr) (mismatchPos : ℕ) :
    Run PrefixHeader K V n Addr := do
  let header ← headerOf node
  if header.prefixLength < maxPrefixLength then do
    let keyByte ← storedAt header mismatchPos
    let newNode ← newOneWay node keyByte (plainHeader header.depth)
    let front ← Exec.lift (copyRange header.stored 0 mismatchPos (plainHeader header.depth).stored 0)
    setHeader newNode ⟨header.depth, uint16 mismatchPos, front⟩
    let rest ← Exec.lift (lib.move header.stored (mismatchPos + 1) maxPrefixLength 0)
    setHeader node ⟨header.depth + (mismatchPos + 1),
      uint16 (header.prefixLength - (mismatchPos + 1)), rest⟩
    pure newNode
  else do
    let minKey ← minKey tr node
    let keyByte ← chunkAt minKey ((header.depth + mismatchPos : ℕ) : ℤ)
    let newNode ← newOneWay node keyByte (plainHeader header.depth)
    setHeader newNode ⟨header.depth, uint16 mismatchPos, header.stored⟩
    let start := header.depth + mismatchPos + 1
    let prefixLength := min maxPrefixLength (header.prefixLength - (mismatchPos + 1))
    let rest ← Exec.lift (copyRange minKey.chunks start (start + prefixLength) header.stored 0)
    setHeader node ⟨header.depth + (mismatchPos + 1),
      uint16 (header.prefixLength - (mismatchPos + 1)), rest⟩
    pure newNode

/-- Insertion reaches an inner node: a prefix the key departs from is split. -/
def enterBy (lib : Library) (tr : Traits K V n) (current : Addr) (key : Key n) (depth : ℕ) :
    Run PrefixHeader K V n (Addr × ℕ) := do
  let pos ← prefixMismatchPos tr current key
  let header ← headerOf current
  if pos < header.prefixLength then do
    let newNode ← splitPrefixIntoParentBy lib tr current pos
    let parent ← deref (← parentOf newNode)
    updateChildPtr parent newNode key
    pure (newNode, depth + pos)
  else pure (current, depth + pos)

/-- `compress_node_into_child`. -/
def compressNodeIntoChildBy (lib : Library) (node : Addr) : Run PrefixHeader K V n Addr := do
  let cell ← load node
  match cell.body with
  | .inner header (.node4 node4) => do
      let child ← Exec.lift (node4.childAt 0)
      if (← getType child) = .leaf then do
        setParent child cell.parent
        if header.depth = 0 then replaceRoot child else pure ()
        delete node
        pure child
      else do
        let childHeader ← headerOf child
        let stored ← Exec.lift
          (if header.prefixLength < maxPrefixLength then do
            let shifted ← lib.move childHeader.stored 0
              (maxPrefixLength - header.prefixLength - 1) (header.prefixLength + 1)
            let front ← copyRange header.stored 0 header.prefixLength shifted 0
            .ok (front.setIfInBounds header.prefixLength node4.firstKey)
          else .ok header.stored)
        setHeader child ⟨header.depth,
          uint16 (childHeader.prefixLength + (header.prefixLength + 1)), stored⟩
        setParent child cell.parent
        delete node
        pure child
  | _ => throw .badCast

/-- `fix_after_erase`. -/
def fixAfterEraseBy (lib : Library) (node : Addr) (key : Key n) : Run PrefixHeader K V n Unit := do
  let size ← sizeOf node
  let minSize ← minSizeOf node
  let node ← (if size < minSize then do
      let (shrunk, _) ← shrink node
      let parent ← deref (← parentOf shrunk)
      updateChildPtr parent shrunk key
      pure shrunk
    else pure node)
  let type ← getType node
  let size ← sizeOf node
  if type = .node4 ∧ size = 1 then do
    let child ← compressNodeIntoChildBy lib node
    let parent ← deref (← parentOf child)
    updateChildPtr parent child key
  else pure ()

end ArPrefixTree

/-! ### Where the classes differ -/

/-- What the two trees do differently when a library shifts. -/
class Shifting (H : Type) [Variant H] where
  /-- Insertion reaches an inner node at a depth. -/
  enterBy {K V : Type} {n : ℕ} : Library → Traits K V n → Addr → Key n → ℕ → Run H K V n (Addr × ℕ)
  /-- `fix_after_erase`. -/
  fixAfterEraseBy {K V : Type} {n : ℕ} : Library → Addr → Key n → Run H K V n Unit
  /-- A node with this header can be merged into an inner child without a move into its own range. -/
  Wide : H → Prop

instance : Shifting DepthHeader where
  enterBy _ := Variant.enter
  fixAfterEraseBy _ := Variant.fixAfterErase
  Wide _ := True

instance : Shifting PrefixHeader where
  enterBy := ArPrefixTree.enterBy
  fixAfterEraseBy := ArPrefixTree.fixAfterEraseBy
  Wide header := 3 ≤ header.prefixLength

variable [Variant H] [Shifting H]

/-- The tree over a library. -/
@[reducible] def Variant.over (H : Type) [Variant H] [Shifting H] (lib : Library) : Variant H where
  enter := Shifting.enterBy lib
  splitLeaf := Variant.splitLeaf
  posLimit := Variant.posLimit H
  pass := Variant.pass
  passStored := Variant.passStored
  fixAfterErase := Shifting.fixAfterEraseBy lib
  copied48 := Variant.copied48

/-! ### Insertion -/

/-- The loop of `insert_unique` and `get_insert_unique_pos`. -/
def insertLoopBy (lib : Library) {α : Type} (tr : Traits K V n) (limit : ℕ) (key : Key n)
    (duplicate : Addr → Run H K V n α) (place : Addr → ℤ → Run H K V n α) :
    ℕ → ℕ → Option Addr → Addr → Run H K V n α :=
  @insertLoop H K V n (Variant.over H lib) α tr limit key duplicate place

/-- `insert_unique`. -/
def insertUniqueBy (lib : Library) (tr : Traits K V n) (x : V) : Run H K V n (Addr × Bool) := do
  let tree ← this
  let key := tree.keyTransform (tr.keyOfValue x)
  match tree.root with
  | none => do
      let newLeaf ← new ⟨some tree.dummyNode, .leaf x⟩
      setRoot (some newLeaf)
      updateCount (· + 1)
      linkDummy
      pure (newLeaf, true)
  | some root =>
      insertLoopBy lib tr n key (fun existingLeaf => pure (existingLeaf, false))
        (fun node index => do
          let newLeaf ← new ⟨some node, .leaf x⟩
          let keyByte ← chunkAt key index
          insertChildBy lib node keyByte newLeaf
          updateCount (· + 1)
          pure (newLeaf, true))
        (n + 1) 0 (some root) tree.dummyNode

/-- `get_insert_unique_pos`. -/
def getInsertUniquePosBy (lib : Library) (tr : Traits K V n) (key : Key n) : Run H K V n Addr := do
  let tree ← this
  match tree.root with
  | none => pure tree.dummyNode
  | some root =>
      insertLoopBy lib tr (Variant.posLimit H n) key (fun existingLeaf => pure existingLeaf)
        (fun node _ => pure node) (n + 1) 0 (some root) tree.dummyNode

/-- `insert_leaf`. -/
def insertLeafBy (lib : Library) (parent leaf : Addr) (key : Key n) : Run H K V n Addr := do
  setParent leaf (some parent)
  if (← getType parent) ≠ .dummyNode then do
    let header ← headerOf parent
    let keyByte ← chunkAt key (Header.branch header)
    insertChildBy lib parent keyByte leaf
  else replaceRoot leaf
  updateCount (· + 1)
  pure leaf

/-- `emplace_unique`. -/
def emplaceUniqueBy (lib : Library) (tr : Traits K V n) (x : V) : Run H K V n (Addr × Bool) := do
  let leaf ← onThrow (new ⟨none, .leaf x⟩) (throw .dangling)
  onThrow
    (do
      let tree ← this
      let value ← leafValue leaf
      let key := tree.keyTransform (tr.keyOfValue value)
      let node ← getInsertUniquePosBy lib tr key
      if (← getType node) ≠ .leaf then do
        let it ← insertLeafBy lib node leaf key
        pure (it, true)
      else do
        delete leaf
        pure (node, false))
    (delete leaf)

/-! ### Erasure -/

/-- The loop of `erase_unique`. -/
def eraseLoopBy (lib : Library) (tr : Traits K V n) (key : Key n) : ℕ → ℕ → Addr → Run H K V n ℕ
  | 0, _, _ => throw .unreachable
  | steps + 1, depth, current =>
      if depth < n then do
        match ← Variant.pass tr current key depth with
        | none => pure 0
        | some depth => do
            let keyByte ← chunkAt key depth
            match ← findChild current keyByte with
            | none => pure 0
            | some child => do
                if ← isLeaf child then do
                  let value ← leafValue child
                  let tree ← this
                  if key = tree.keyTransform (tr.keyOfValue value) then do
                    eraseChildBy lib current keyByte
                    updateCount (· - 1)
                    Shifting.fixAfterEraseBy lib current key
                    pure 1
                  else pure 0
                else eraseLoopBy lib tr key steps (depth + 1) child
      else throw .unreachable

/-- `erase_unique`. -/
def eraseUniqueBy (lib : Library) (tr : Traits K V n) (k : K) : Run H K V n ℕ := do
  let tree ← this
  match tree.root with
  | none => pure 0
  | some root => do
      let key := tree.keyTransform k
      if ← isLeaf root then do
        let value ← leafValue root
        if key = tree.keyTransform (tr.keyOfValue value) then do
          delete root
          setRoot none
          updateCount (· - 1)
          pure 1
        else pure 0
      else eraseLoopBy lib tr key n 0 root

/-- `erase`, by iterator. -/
def eraseAtBy (lib : Library) (tr : Traits K V n) (it : Addr) : Run H K V n Addr := do
  let result ← increment tr it
  let value ← leafValue it
  let tree ← this
  let key := tree.keyTransform (tr.keyOfValue value)
  if some it = tree.root then do
    delete it
    setRoot none
    updateCount (· - 1)
    pure result
  else do
    let node ← deref (← parentOf it)
    let header ← headerOf node
    let keyByte ← chunkAt key (Header.branch header)
    eraseChildBy lib node keyByte
    updateCount (· - 1)
    Shifting.fixAfterEraseBy lib node key
    pure result

/-! ### Calls and runs -/

/-- A call is executed over a library. -/
def performBy (lib : Library) (tr : Traits K V n) : Call K V → Run H K V n Answer
  | .insert x => do
      let (it, fresh) ← insertUniqueBy lib tr x
      pure (.inserted it fresh)
  | .emplace x => do
      let (it, fresh) ← emplaceUniqueBy lib tr x
      pure (.inserted it fresh)
  | .erase k => do
      let count ← eraseUniqueBy lib tr k
      pure (.erased count)
  | .eraseAt it => do
      let next ← eraseAtBy lib tr it
      pure (.next next)
  | .clear => do
      clear
      pure .cleared

/-- The bytes with which the keys of a set that agree with `k` on the first `d` bytes go on. -/
def bytesBeside (S : Set (Key n)) (k : Key n) (d : ℕ) : Set Byte :=
  {b | ∃ v ∈ S, Word.Agree d k v ∧ v.letter d = b}

/-- **A key that is inserted beside few larger bytes**: where it leaves the keys of the set, these go on
with 16 different bytes or more, or with at most one larger than its own. -/
def FewLarger (S : Set (Key n)) (k : Key n) : Prop :=
  ∀ d, (∃ v ∈ S, Word.Agree d k v) → (∀ v ∈ S, ¬ Word.Agree (d + 1) k v) →
    16 ≤ (bytesBeside S k d).ncard ∨ {b ∈ bytesBeside S k d | k.letter d < b}.ncard ≤ 1

omit [Variant H] [Shifting H] in
/-- The call erases the element at this iterator. -/
def Call.ErasesAt (tr : Traits K V n) (s : St H K V n) (it : Addr) : Call K V → Prop
  | .erase k => ∃ v, Stored s it v ∧ tr.keyOf v = tr.defaultTransform k
  | .eraseAt it' => it' = it
  | _ => False

omit [Variant H] [Shifting H] in
/-- **The node `a` is left with the inner node `c` as its only child** when the leaf `it` is erased. -/
structure LeftAlone (s : St H K V n) (it a : Addr) (h : H) (b : Byte) (c : Addr) (child : H)
    (l' : Layout) : Prop where
  parent : ∃ l b', IsInner s a h l ∧ l.count = 2 ∧ l.find b' = .ok (some it) ∧ b' ≠ b ∧
    l.find b = .ok (some c)
  inner : IsInner s c child l'

/-- **The shifts of a call are apart**: insertions have few larger keys beside them, and the nodes that
are merged into an inner child have wide headers. -/
def Call.Apart (tr : Traits K V n) (s : St H K V n) (m : Table Byte n V) : Call K V → Prop
  | .insert x => FewLarger (Table.dom m) (tr.keyOf x)
  | .emplace x => FewLarger (Table.dom m) (tr.keyOf x)
  | call => ∀ it a h b c child l', call.ErasesAt tr s it → LeftAlone s it a h b c child l' →
      Shifting.Wide h

/-- **The runs over a library** whose calls are apart, on a container that starts empty, with the
reference map. -/
inductive ShiftRun (lib : Library) (tr : Traits K V n) : St H K V n → Table Byte n V → Prop
  | start {mem : Memory (Cell H V)} {s : St H K V n} (calm : mem.failAt = none)
      (run : init ⟨mem, Tree.uninitialised tr.defaultTransform⟩ = .ok ⟨⟩ s) :
      ShiftRun lib tr s Table.empty
  | call {s s' : St H K V n} {m m' : Table Byte n V} {call : Call K V} {answer : Answer}
      (before : ShiftRun lib tr s m) (apart : call.Apart tr s m) (effect : call.Effect tr s m m')
      (run : performBy lib tr call s = .ok answer s') : ShiftRun lib tr s' m'

/-! ### What the shifts must leave -/

/-- The entries in use, in the order of the arrays. -/
def SortedNode.entries {cap : ℕ} (nd : SortedNode cap) : List (Byte × Option Addr) :=
  (nd.keys.toList.zip nd.children.toList).take nd.count

/-- The entries of a `_Node_4` or `_Node_16`. -/
def Layout.entries : Layout → List (Byte × Option Addr)
  | .node4 nd => nd.entries
  | .node16 nd => nd.entries
  | _ => []

omit [Variant H] [Shifting H] in
/-- **The keys of the nodes are sorted and distinct, and each child is paired with its key byte.** -/
structure Orderly [Header H] (tr : Traits K V n) (s : St H K V n) : Prop where
  whole : ∀ a h l, IsInner s a h l → l.getType = .node4 ∨ l.getType = .node16 →
    l.entries.length = l.count
  sorted : ∀ a h l, IsInner s a h l → (l.entries.map Prod.fst).Pairwise (· < ·)
  paired : ∀ a h l b child, IsInner s a h l → (b, child) ∈ l.entries →
    ∃ c, child = some c ∧ (keysBelow tr s.mem c).Nonempty ∧
      ∀ w ∈ keysBelow tr s.mem c, w.letter (Header.branch h) = b

/-- **The shifts of a container over a library** are possible and leave it orderly: a call whose shifts are
apart returns, over every library that stops where a precondition is violated, and over this one as over
`memmove`. -/
structure Shifted (lib : Library) (tr : Traits K V n) (s : St H K V n) (m : Table Byte n V) : Prop where
  orderly : Orderly tr s
  met : ∀ call m' fault, call.Effect tr s m m' → call.Apart tr s m →
    ∃ answer s', performBy (.strict fault) tr call s = .ok answer s'
  same : ∀ call m', call.Effect tr s m m' → call.Apart tr s m →
    performBy lib tr call s = perform tr call s

/-- The bytes of the prefix that are stored. -/
def PrefixHeader.prefixBytes (h : PrefixHeader) : List Byte := h.stored.toList.take h.prefixLength

/-- **The header of a node merged into its child**: parent prefix, branch byte, child prefix. -/
structure Merged (h : PrefixHeader) (b : Byte) (child joined : PrefixHeader) : Prop where
  depth : joined.depth = h.depth
  length : joined.prefixLength = h.prefixLength + 1 + child.prefixLength
  bytes : joined.prefixBytes
    = (h.prefixBytes ++ b :: child.prefixBytes).take maxPrefixLength

/-- **The merges of a call over a library** leave the prefix of the parent, the branch byte and the prefix
of the child. -/
def MergesPrefixes (lib : Library) (tr : Traits K V n) (s : ArPrefixTree.State K V n)
    (m : Table Byte n V) : Prop :=
  ∀ call m' it a h b c child l', call.Effect tr s m m' → call.Apart tr s m → call.ErasesAt tr s it →
    LeftAlone s it a h b c child l' →
    ∃ answer s' p joined, performBy lib tr call s = .ok answer s' ∧
      s'.mem.get c = some ⟨p, .inner joined l'⟩ ∧ Merged h b child joined

end CppArt
