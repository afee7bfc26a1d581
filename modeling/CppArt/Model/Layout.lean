/-
**The four inner node layouts of `ar_tree.h` and `ar_prefix_tree.h`.**

Both headers declare the same four classes `_Node_4`, `_Node_16`, `_Node_48`, `_Node_256`: a count
and arrays of key bytes and child pointers. Their member functions are the same text in the two
files, up to the index of the key byte that `successor` and `predecessor` read, which the caller
passes here. `_Node_4` and `_Node_16` differ only in their capacity and are `SortedNode 4` and
`SortedNode 16`.

A member function that indexes an array outside its bounds stops with `Fault.outOfBounds`, one that
calls through a null pointer with `Fault.nullPointer`. `std::move` inside an array acts as `memmove`.
-/

import CppArt.Lib.Memory
import CppArt.Lib.Words

namespace CppArt

/-- `uint8_t`. -/
abbrev Byte := Fin 256

instance byteCount_neZero : NeZero 256 := ⟨by decide⟩

/-- An array with an element for each byte. -/
abbrev ByteTable (α : Type) := Vector α 256

namespace ByteTable

variable {α : Type}

/-- `table[b]`. -/
def read (table : ByteTable α) (b : Byte) : α := table[b]

/-- `table[b] = x;` -/
def write (table : ByteTable α) (b : Byte) (x : α) : ByteTable α := table.set b x

theorem read_write (table : ByteTable α) (b b' : Byte) (x : α) :
    (table.write b x).read b' = if b' = b then x else table.read b' := by
  unfold read write
  by_cases same : b' = b
  · simp [same]
  · have other : b.val ≠ b'.val := fun equal => same (Fin.ext equal.symm)
    simp [same, other]

@[simp] theorem read_ofFn (f : Byte → α) (b : Byte) : read (Vector.ofFn f) b = f b := by
  simp [read]

@[simp] theorem read_replicate (x : α) (b : Byte) : read (Vector.replicate 256 x) b = x := by
  simp [read]

end ByteTable

/-- The number of a slot, converted to `uint8_t`. -/
def slotByte {size : ℕ} (pos : Fin size) : Byte := Fin.ofNat 256 pos.val

/-- A transformed key, read through `Key::chunks`. -/
abbrev Key (n : ℕ) := Word Byte n

/-- The ways an execution stops without returning. -/
inductive Fault
  /-- a null pointer is dereferenced -/
  | nullPointer
  /-- a freed or unallocated address is dereferenced -/
  | dangling
  /-- a `static_cast` to a type the object does not have -/
  | badCast
  /-- an array is indexed outside its bounds -/
  | outOfBounds
  /-- `throw;` with no exception in flight -/
  | unreachable
  /-- an exception thrown by `new` or by a constructor of the value -/
  | badAlloc
  /-- a virtual call recursing deeper than a tree over the key length can be -/
  | recursion
deriving DecidableEq, Repr

/-- `EMPTY_MARKER`, the `child_index` entry of a byte without child. -/
def emptyMarker : Byte := 63

/-- `std::move(first, last, dest)` within one array, acting as `memmove`. -/
def memmove {α : Type} {size : ℕ} (a : Vector α size) (first last dest : ℕ) :
    Except Fault (Vector α size) :=
  if last ≤ size ∧ dest + (last - first) ≤ size then
    .ok (Vector.ofFn fun i =>
      if dest ≤ i.val ∧ i.val < dest + (last - first) then (a[first + (i.val - dest)]?).getD (a.get i)
      else a.get i)
  else .error .outOfBounds

/-! ### `_Node_4` and `_Node_16` -/

/-- A node with a sorted array of key bytes and the children in the same order. -/
structure SortedNode (cap : ℕ) where
  count : ℕ
  keys : Vector Byte cap
  children : Vector (Option Addr) cap
deriving DecidableEq, Repr

abbrev Node4 := SortedNode 4

abbrev Node16 := SortedNode 16

namespace SortedNode

variable {cap : ℕ}

/-- The keys in use. -/
def liveKeys (nd : SortedNode cap) : List Byte := nd.keys.toList.take nd.count

/-- `for (pos = 0; pos < _count && keys[pos] < key_byte; pos++);` -/
def lowerPos (nd : SortedNode cap) (keyByte : Byte) : ℕ :=
  nd.liveKeys.findIdx fun key => ! decide (key < keyByte)

/-- `for (pos = 0; pos < _count && keys[pos] <= key_byte; pos++);` -/
def upperPos (nd : SortedNode cap) (keyByte : Byte) : ℕ :=
  nd.liveKeys.findIdx fun key => ! decide (key ≤ keyByte)

/-- How often `for (pos = _count - 1; pos >= 0 && keys[pos] >= key_byte; pos--);` steps. -/
def stepsDown (nd : SortedNode cap) (keyByte : Byte) : ℕ :=
  nd.liveKeys.reverse.findIdx fun key => ! decide (keyByte ≤ key)

/-- `keys[0]` -/
def firstKey (nd : Node4) : Byte := nd.keys[0]

/-- The child pointer at a position, dereferenced. -/
def childAt (nd : SortedNode cap) (pos : ℕ) : Except Fault Addr :=
  match nd.children[pos]? with
  | some (some child) => .ok child
  | some none => .error .nullPointer
  | none => .error .outOfBounds

/-- `keys[pos] = key_byte; children[pos] = node; _count++;` -/
def place (nd : SortedNode cap) (pos : ℕ) (keyByte : Byte) (node : Addr) :
    Except Fault (SortedNode cap) :=
  if inside : pos < cap then
    .ok ⟨nd.count + 1, nd.keys.set pos keyByte, nd.children.set pos (some node)⟩
  else .error .outOfBounds

/-- `insert`. (`_Node_16` tests `pos != _count`, which is the same for `pos <= _count`.) -/
def insert (nd : SortedNode cap) (keyByte : Byte) (node : Addr) : Except Fault (SortedNode cap) :=
  let pos := nd.lowerPos keyByte
  if pos < nd.count then do
    let keys ← memmove nd.keys pos nd.count (pos + 1)
    let children ← memmove nd.children pos nd.count (pos + 1)
    place ⟨nd.count, keys, children⟩ pos keyByte node
  else nd.place pos keyByte node

/-- `erase`: the child pointer that is deleted and the node without it. -/
def erase (nd : SortedNode cap) (keyByte : Byte) : Except Fault (Option Addr × SortedNode cap) :=
  let pos := nd.lowerPos keyByte
  if pos < nd.count then do
    let keys ← memmove nd.keys (pos + 1) nd.count pos
    let children ← memmove nd.children (pos + 1) nd.count pos
    .ok ((nd.children[pos]?).join, ⟨nd.count - 1, keys, children⟩)
  else .ok (none, nd)

/-- `find`. -/
def find (nd : SortedNode cap) (keyByte : Byte) : Option Addr :=
  let pos := nd.lowerPos keyByte
  if pos < nd.count ∧ nd.keys[pos]? = some keyByte then (nd.children[pos]?).join else none

/-- `update_child_ptr`. -/
def updateChildPtr (nd : SortedNode cap) (keyByte : Byte) (node : Addr) : SortedNode cap :=
  let pos := nd.lowerPos keyByte
  if pos < nd.count ∧ nd.keys[pos]? = some keyByte then
    { nd with children := nd.children.setIfInBounds pos (some node) }
  else nd

/-- `children[0]`, which `minimum` descends into. -/
def minimumChild (nd : SortedNode cap) : Except Fault Addr := nd.childAt 0

/-- `children[_count - 1]`, which `maximum` descends into. -/
def maximumChild (nd : SortedNode cap) : Except Fault Addr :=
  if nd.count = 0 then .error .outOfBounds else nd.childAt (nd.count - 1)

/-- The child `successor` descends into, if the node has one above the key byte. -/
def successorChild (nd : SortedNode cap) (keyByte : Byte) : Except Fault (Option Addr) :=
  let pos := nd.upperPos keyByte
  if pos < nd.count then (nd.childAt pos).map some else .ok none

/-- The child `predecessor` descends into, if the node has one below the key byte. -/
def predecessorChild (nd : SortedNode cap) (keyByte : Byte) : Except Fault (Option Addr) :=
  let steps := nd.stepsDown keyByte
  if steps < nd.count then (nd.childAt (nd.count - 1 - steps)).map some else .ok none

end SortedNode

/-! ### `_Node_48` -/

/-- A node that maps each key byte to a slot of a children array. -/
structure Node48 where
  count : ℕ
  childIndex : ByteTable Byte
  children : Vector (Option Addr) 48
deriving DecidableEq, Repr

namespace Node48

/-- `child_index[b] != EMPTY_MARKER`. -/
def used (nd : Node48) (b : Byte) : Bool := nd.childIndex.read b ≠ emptyMarker

/-- `children[child_index[b]]`. -/
def slot (nd : Node48) (b : Byte) : Except Fault (Option Addr) :=
  match nd.children[(nd.childIndex.read b).val]? with
  | some child => .ok child
  | none => .error .outOfBounds

/-- `children[child_index[b]]`, dereferenced. -/
def slotAt (nd : Node48) (b : Byte) : Except Fault Addr := do
  match ← nd.slot b with
  | some child => .ok child
  | none => .error .nullPointer

/-- `insert`: the new child goes to the first free slot. -/
def insert (nd : Node48) (keyByte : Byte) (node : Addr) : Except Fault Node48 :=
  match Fin.find? fun pos : Fin 48 => nd.children[pos].isNone with
  | some pos => .ok ⟨nd.count + 1, nd.childIndex.write keyByte (slotByte pos),
      nd.children.set pos (some node)⟩
  | none => .error .outOfBounds

/-- `erase`: the child pointer that is deleted and the node without it. -/
def erase (nd : Node48) (keyByte : Byte) : Except Fault (Option Addr × Node48) := do
  let child ← nd.slot keyByte
  .ok (child, ⟨nd.count - 1, nd.childIndex.write keyByte emptyMarker,
    nd.children.setIfInBounds (nd.childIndex.read keyByte).val none⟩)

/-- `find`. -/
def find (nd : Node48) (keyByte : Byte) : Except Fault (Option Addr) :=
  if nd.used keyByte then nd.slot keyByte else .ok none

/-- `update_child_ptr`. -/
def updateChildPtr (nd : Node48) (keyByte : Byte) (node : Addr) : Except Fault Node48 :=
  if nd.used keyByte then do
    let _ ← nd.slot keyByte
    .ok { nd with children := nd.children.setIfInBounds (nd.childIndex.read keyByte).val (some node) }
  else .ok nd

/-- The child of the first byte in use, which `minimum` descends into. -/
def minimumChild (nd : Node48) : Except Fault Addr :=
  match Fin.find? nd.used with
  | some pos => nd.slotAt pos
  | none => .error .outOfBounds

/-- The child of the last byte in use, which `maximum` descends into. -/
def maximumChild (nd : Node48) : Except Fault Addr :=
  match Fin.findRev? nd.used with
  | some pos => nd.slotAt pos
  | none => .error .outOfBounds

/-- The child `successor` descends into, if the node has one above the key byte. -/
def successorChild (nd : Node48) (keyByte : Byte) : Except Fault (Option Addr) :=
  match Fin.find? fun pos => decide (keyByte < pos) && nd.used pos with
  | some pos => (nd.slotAt pos).map some
  | none => .ok none

/-- The child `predecessor` descends into, if the node has one below the key byte. -/
def predecessorChild (nd : Node48) (keyByte : Byte) : Except Fault (Option Addr) :=
  match Fin.findRev? fun pos => decide (pos < keyByte) && nd.used pos with
  | some pos => (nd.slotAt pos).map some
  | none => .ok none

/-- The bytes in use, in ascending order. -/
def usedBytes (nd : Node48) : List Byte := (List.finRange 256).filter nd.used

/-- Every byte in use names a slot of the array. -/
def inRange (nd : Node48) : Bool :=
  (List.finRange 256).all fun b => ! nd.used b || decide ((nd.childIndex.read b).val < 48)

/-- The child pointer of a byte. -/
def entry (nd : Node48) (b : Byte) : Option Addr := (nd.children[(nd.childIndex.read b).val]?).join

end Node48

/-! ### `_Node_256` -/

/-- A node with one child pointer for each key byte. -/
structure Node256 where
  count : ℕ
  children : ByteTable (Option Addr)
deriving DecidableEq, Repr

namespace Node256

/-- `children[b] != nullptr`. -/
def used (nd : Node256) (b : Byte) : Bool := (nd.children.read b).isSome

/-- `children[b]`, dereferenced. -/
def childAt (nd : Node256) (b : Byte) : Except Fault Addr :=
  match nd.children.read b with
  | some child => .ok child
  | none => .error .nullPointer

/-- `insert`. -/
def insert (nd : Node256) (keyByte : Byte) (node : Addr) : Node256 :=
  ⟨nd.count + 1, nd.children.write keyByte (some node)⟩

/-- `erase`: the child pointer that is deleted and the node without it. -/
def erase (nd : Node256) (keyByte : Byte) : Option Addr × Node256 :=
  (nd.children.read keyByte, ⟨nd.count - 1, nd.children.write keyByte none⟩)

/-- `find`. -/
def find (nd : Node256) (keyByte : Byte) : Option Addr := nd.children.read keyByte

/-- `update_child_ptr`. -/
def updateChildPtr (nd : Node256) (keyByte : Byte) (node : Addr) : Node256 :=
  if nd.used keyByte then { nd with children := nd.children.write keyByte (some node) } else nd

/-- The first non-null child, which `minimum` descends into. -/
def minimumChild (nd : Node256) : Except Fault Addr :=
  match Fin.find? nd.used with
  | some pos => nd.childAt pos
  | none => .error .outOfBounds

/-- The last non-null child, which `maximum` descends into. -/
def maximumChild (nd : Node256) : Except Fault Addr :=
  match Fin.findRev? nd.used with
  | some pos => nd.childAt pos
  | none => .error .outOfBounds

/-- The child `successor` descends into, if the node has one above the key byte. -/
def successorChild (nd : Node256) (keyByte : Byte) : Except Fault (Option Addr) :=
  match Fin.find? fun pos => decide (keyByte < pos) && nd.used pos with
  | some pos => (nd.childAt pos).map some
  | none => .ok none

/-- The child `predecessor` descends into, if the node has one below the key byte. -/
def predecessorChild (nd : Node256) (keyByte : Byte) : Except Fault (Option Addr) :=
  match Fin.findRev? fun pos => decide (pos < keyByte) && nd.used pos with
  | some pos => (nd.childAt pos).map some
  | none => .ok none

/-- The bytes with a child, in ascending order. -/
def usedBytes (nd : Node256) : List Byte := (List.finRange 256).filter nd.used

end Node256

/-! ### Grow and shrink constructors -/

/-- `_Node_16(_Node_4 *)`. -/
def Node16.ofNode4 (nd : Node4) : Node16 where
  count := 4
  keys := Vector.ofFn fun i => (nd.keys[i.val]?).getD 0
  children := Vector.ofFn fun i => (nd.children[i.val]?).getD none

/-- `_Node_4(_Node_16 *)`: the first four entries. -/
def Node4.ofNode16 (nd : Node16) : Node4 where
  count := 4
  keys := Vector.ofFn fun i : Fin 4 => nd.keys[i.val]
  children := Vector.ofFn fun i : Fin 4 => nd.children[i.val]

/-- `_Node_48(_Node_16 *)`: slot `i` takes the `i`-th of the sixteen children. -/
def Node48.ofNode16 (nd : Node16) : Node48 where
  count := 16
  childIndex := (List.finRange 16).foldl (fun index i => ByteTable.write index nd.keys[i] (slotByte i))
    (Vector.replicate 256 emptyMarker)
  children := Vector.ofFn fun i => (nd.children[i.val]?).getD none

/-- `_Node_16(_Node_48 *)`: the children in the order of their bytes. -/
def Node16.ofNode48 (nd : Node48) : Except Fault Node16 :=
  if nd.inRange ∧ nd.usedBytes.length ≤ 16 then
    .ok ⟨16, Vector.ofFn fun i => (nd.usedBytes[i.val]?).getD 0,
      Vector.ofFn fun i => (nd.usedBytes[i.val]?).bind nd.entry⟩
  else .error .outOfBounds

/-- `_Node_256(_Node_48 *)`. -/
def Node256.ofNode48 (nd : Node48) : Except Fault Node256 :=
  if nd.inRange then
    .ok ⟨48, Vector.ofFn fun b => if nd.used b then nd.entry b else none⟩
  else .error .outOfBounds

/-- `_Node_48(_Node_256 *)`: the slots are numbered in the order of the bytes. -/
def Node48.ofNode256 (nd : Node256) : Except Fault Node48 :=
  if nd.usedBytes.length ≤ 48 then
    .ok ⟨48,
      Vector.ofFn fun b => if nd.used b then Fin.ofNat 256 (nd.usedBytes.idxOf b) else emptyMarker,
      Vector.ofFn fun pos => (nd.usedBytes[pos.val]?).bind nd.children.read⟩
  else .error .outOfBounds

/-! ### The layouts as one type -/

/-- `node_type`. -/
inductive NodeType
  | leaf
  | node4
  | node16
  | node48
  | node256
  | dummyNode
deriving DecidableEq, Repr

/-- The count and the arrays of an inner node. -/
inductive Layout
  | node4 (nd : Node4)
  | node16 (nd : Node16)
  | node48 (nd : Node48)
  | node256 (nd : Node256)
deriving DecidableEq, Repr

namespace Layout

/-- `get_type`. -/
def getType : Layout → NodeType
  | .node4 _ => .node4
  | .node16 _ => .node16
  | .node48 _ => .node48
  | .node256 _ => .node256

/-- `_count`. -/
def count : Layout → ℕ
  | .node4 nd => nd.count
  | .node16 nd => nd.count
  | .node48 nd => nd.count
  | .node256 nd => nd.count

/-- `min_size`. -/
def minSize : Layout → ℕ
  | .node4 _ => 2
  | .node16 _ => 5
  | .node48 _ => 17
  | .node256 _ => 49

/-- `max_size`. -/
def maxSize : Layout → ℕ
  | .node4 _ => 4
  | .node16 _ => 16
  | .node48 _ => 48
  | .node256 _ => 256

/-- The type of a node with `k` children. -/
def typeFor (k : ℕ) : NodeType :=
  if k ≤ 4 then .node4 else if k ≤ 16 then .node16 else if k ≤ 48 then .node48 else .node256

def find : Layout → Byte → Except Fault (Option Addr)
  | .node4 nd, keyByte => .ok (nd.find keyByte)
  | .node16 nd, keyByte => .ok (nd.find keyByte)
  | .node48 nd, keyByte => nd.find keyByte
  | .node256 nd, keyByte => .ok (nd.find keyByte)

/-- The bytes that have a child. -/
def branchBytes (l : Layout) : Set Byte := {b | ∃ c, l.find b = .ok (some c)}

def insert : Layout → Byte → Addr → Except Fault Layout
  | .node4 nd, keyByte, node => (nd.insert keyByte node).map .node4
  | .node16 nd, keyByte, node => (nd.insert keyByte node).map .node16
  | .node48 nd, keyByte, node => (nd.insert keyByte node).map .node48
  | .node256 nd, keyByte, node => .ok (.node256 (nd.insert keyByte node))

def erase : Layout → Byte → Except Fault (Option Addr × Layout)
  | .node4 nd, keyByte => (nd.erase keyByte).map (Prod.map id .node4)
  | .node16 nd, keyByte => (nd.erase keyByte).map (Prod.map id .node16)
  | .node48 nd, keyByte => (nd.erase keyByte).map (Prod.map id .node48)
  | .node256 nd, keyByte => .ok (Prod.map id .node256 (nd.erase keyByte))

def updateChildPtr : Layout → Byte → Addr → Except Fault Layout
  | .node4 nd, keyByte, node => .ok (.node4 (nd.updateChildPtr keyByte node))
  | .node16 nd, keyByte, node => .ok (.node16 (nd.updateChildPtr keyByte node))
  | .node48 nd, keyByte, node => (nd.updateChildPtr keyByte node).map .node48
  | .node256 nd, keyByte, node => .ok (.node256 (nd.updateChildPtr keyByte node))

/-- The child `minimum` (upwards) or `maximum` (downwards) descends into. -/
def extremeChild : Dir → Layout → Except Fault Addr
  | .up, .node4 nd => nd.minimumChild
  | .up, .node16 nd => nd.minimumChild
  | .up, .node48 nd => nd.minimumChild
  | .up, .node256 nd => nd.minimumChild
  | .down, .node4 nd => nd.maximumChild
  | .down, .node16 nd => nd.maximumChild
  | .down, .node48 nd => nd.maximumChild
  | .down, .node256 nd => nd.maximumChild

/-- The child `successor` (upwards) or `predecessor` (downwards) descends into, if any. -/
def childBeyond : Dir → Layout → Byte → Except Fault (Option Addr)
  | .up, .node4 nd, keyByte => nd.successorChild keyByte
  | .up, .node16 nd, keyByte => nd.successorChild keyByte
  | .up, .node48 nd, keyByte => nd.successorChild keyByte
  | .up, .node256 nd, keyByte => nd.successorChild keyByte
  | .down, .node4 nd, keyByte => nd.predecessorChild keyByte
  | .down, .node16 nd, keyByte => nd.predecessorChild keyByte
  | .down, .node48 nd, keyByte => nd.predecessorChild keyByte
  | .down, .node256 nd, keyByte => nd.predecessorChild keyByte

/-- The layout `grow` constructs. -/
def grown : Layout → Except Fault Layout
  | .node4 nd => .ok (.node16 (.ofNode4 nd))
  | .node16 nd => .ok (.node48 (.ofNode16 nd))
  | .node48 nd => (Node256.ofNode48 nd).map .node256
  | .node256 _ => .error .unreachable

/-- The layout `shrink` constructs for the three larger types. -/
def shrunk : Layout → Except Fault Layout
  | .node4 _ => .error .unreachable
  | .node16 nd => .ok (.node4 (.ofNode16 nd))
  | .node48 nd => (Node16.ofNode48 nd).map .node16
  | .node256 nd => (Node48.ofNode256 nd).map .node48

/-- The child pointers whose `_parent` the constructor that `grow` calls sets, in its order: the whole
array of a `_Node_4` or a `_Node_16`, and of a `_Node_48` the slots of the bytes in use. -/
def grownKids : Layout → List (Option Addr)
  | .node4 nd => nd.children.toList
  | .node16 nd => nd.children.toList
  | .node48 nd => nd.usedBytes.map nd.entry
  | .node256 _ => []

/-- The child pointers whose `_parent` the constructor that `shrink` calls sets, in its order: the
first four of a `_Node_16`, and of a larger node the ones of the bytes in use. -/
def shrunkKids : Layout → List (Option Addr)
  | .node4 _ => []
  | .node16 nd => nd.children.toList.take 4
  | .node48 nd => nd.usedBytes.map nd.entry
  | .node256 nd => nd.usedBytes.map nd.children.read

/-- The child pointers `clear` deletes, in its order. -/
def members : Layout → List (Except Fault (Option Addr))
  | .node4 nd => (nd.children.toList.take nd.count).map .ok
  | .node16 nd => (nd.children.toList.take nd.count).map .ok
  | .node48 nd => nd.usedBytes.map nd.slot
  | .node256 nd => nd.usedBytes.map fun b => .ok (nd.children.read b)

/-- The `_Node_4` with one child that replaces a leaf or splits a prefix. -/
def oneWay (keyByte : Byte) (child : Addr) : Layout :=
  .node4 ⟨1, (Vector.replicate 4 0).set 0 keyByte, (Vector.replicate 4 none).set 0 (some child)⟩

end Layout

end CppArt
