/-
**The member functions of the two containers.**

`ar_tree.h` and `ar_prefix_tree.h` share the shape of every public member function: the loops, the
order of the tests, the calls. Where they differ, the difference is one of the fields of `Variant`:
what happens on entering an inner node, how a leaf is split, how the tree is repaired after an
erasure. The definitions here are the shared text; `Model/ArTree.lean` and `Model/ArPrefixTree.lean`
give the two variants and name the member functions of each class.

Both classes compare keys for equality by all of their bytes, `ar_tree` with `==` on the transformed
value and `ar_prefix_tree` with `!std::memcmp`.
-/

import CppArt.Model.Node

namespace CppArt

variable {H K V : Type} {n : ℕ}

/-! ### Data members -/

/-- The data members of `*this`. -/
def this : Run H K V n (Tree K n) := fun s => .ok s.tree s

/-- `_M_root = root;` -/
def setRoot (root : Option Addr) : Run H K V n Unit :=
  modify fun s => { s with tree := { s.tree with root := root } }

/-- `_M_count = count(_M_count);` -/
def updateCount (count : ℕ → ℕ) : Run H K V n Unit :=
  modify fun s => { s with tree := { s.tree with count := count s.tree.count } }

/-- `_M_dummy_node->_root = _M_root;` -/
def linkDummy : Run H K V n Unit := do
  let tree ← this
  let cell ← load tree.dummyNode
  match cell.body with
  | .dummy _ leaf => store tree.dummyNode { cell with body := .dummy tree.root leaf }
  | _ => throw .badCast

/-- `replace_root`. -/
def replaceRoot (node : Addr) : Run H K V n Unit := do
  setRoot (some node)
  linkDummy

/-- `new _Dummy_Node()`. The first `new` is the storage, whose fields the constructor sets. -/
def newDummy : Run H K V n Addr := do
  let dummy ← new ⟨none, .dummy none 0⟩
  let leaf ← onThrow (new ⟨some dummy, .baseLeaf⟩) (delete dummy)
  store dummy ⟨some dummy, .dummy none leaf⟩
  pure dummy

/-- `init`. -/
def init : Run H K V n Unit := do
  updateCount fun _ => 0
  setRoot none
  let dummy ← newDummy
  modify fun s => { s with tree := { s.tree with dummyNode := dummy } }

/-- The data members before the constructor has run. -/
def Tree.uninitialised (keyTransform : K → Key n) : Tree K n := ⟨keyTransform, 0, 0, none⟩

/-- `update_child_ptr`, the member function of a container. -/
def updateChildPtr [Header H] (parent child : Addr) (key : Key n) : Run H K V n Unit := do
  if (← getType parent) = .dummyNode then replaceRoot child
  else do
    let header ← headerOf parent
    let keyByte ← chunkAt key (Header.branch header)
    replaceChild parent keyByte child

/-! ### Iterators -/

/-- `end`: an iterator is the address of a leaf. -/
def endIt : Run H K V n Addr := do
  let tree ← this
  let cell ← load tree.dummyNode
  match cell.body with
  | .dummy _ leaf => pure leaf
  | _ => throw .badCast

/-- `begin`. -/
def beginIt : Run H K V n Addr := do
  let tree ← this
  match tree.root with
  | some root => extreme .up root
  | none => endIt

/-- `operator++` (upwards) and `operator--` (downwards). -/
def advance [Header H] (tr : Traits K V n) (dir : Dir) (it : Addr) : Run H K V n Addr := do
  let parent ← deref (← parentOf it)
  if (← getType parent) = .dummyNode then
    neighbour dir (tr.defaultTransform tr.defaultKey) parent
  else do
    let value ← leafValue it
    neighbour dir (tr.defaultTransform (tr.keyOfValue value)) parent

/-- `operator++`. -/
def increment [Header H] (tr : Traits K V n) (it : Addr) : Run H K V n Addr := advance tr .up it

/-- `operator--`. -/
def decrement [Header H] (tr : Traits K V n) (it : Addr) : Run H K V n Addr := advance tr .down it

/-! ### Where the classes differ -/

/-- What `ar_tree` and `ar_prefix_tree` do differently. -/
class Variant (H : Type) extends Header H where
  /-- Insertion reaches an inner node at a depth: the node to search and the byte to search for. -/
  enter {K V : Type} {n : ℕ} : Traits K V n → Addr → Key n → ℕ → Run H K V n (Addr × ℕ)
  /-- Insertion reaches a leaf with another key at a depth: the inner node for the two leaves and the
  byte where the keys differ. Bytes are compared below the limit. -/
  splitLeaf {K V : Type} {n : ℕ} : ℕ → Addr → Key n → Key n → ℕ → Run H K V n (Addr × ℕ)
  /-- The limit of that comparison in `get_insert_unique_pos`, for `key_size`. -/
  posLimit : ℕ → ℕ
  /-- An erasure or an ordered search reaches an inner node at a depth: the byte to search for,
  unless the key departs from the prefix of the node. -/
  pass {K V : Type} {n : ℕ} : Traits K V n → Addr → Key n → ℕ → Run H K V n (Option ℕ)
  /-- The same for `find`. -/
  passStored {K V : Type} {n : ℕ} : Addr → Key n → ℕ → Run H K V n (Option ℕ)
  /-- `fix_after_erase`. -/
  fixAfterErase {K V : Type} {n : ℕ} : Addr → Key n → Run H K V n Unit
  /-- The header in a copy constructed by `_Node_48(const _Node_48 &)`; the other copy constructors
  pass all fields on. -/
  copied48 : H → H

variable [Variant H]

/-! ### Insertion -/

/-- The node at which an absent child is inserted, grown before if it is full. -/
def makeRoom (node : Addr) (key : Key n) : Run H K V n Addr := do
  let size ← sizeOf node
  let maxSize ← maxSizeOf node
  if size = maxSize then do
    let grown ← grow node
    let parent ← deref (← parentOf grown)
    updateChildPtr parent grown key
    pure grown
  else pure node

/-- The loop of `insert_unique` and `get_insert_unique_pos`. It ends at the leaf of an equal key or at
an inner node ready for a new leaf, with the index of the byte the leaf is inserted for. -/
def insertLoop {α : Type} (tr : Traits K V n) (limit : ℕ) (key : Key n)
    (duplicate : Addr → Run H K V n α) (place : Addr → ℤ → Run H K V n α) :
    ℕ → ℕ → Option Addr → Addr → Run H K V n α
  | 0, _, _, _ => throw .unreachable
  | steps + 1, depth, current, previous =>
      if depth < n + 1 then
        match current with
        | some current => do
            if ← isLeaf current then do
              let value ← leafValue current
              let tree ← this
              let existingKey := tree.keyTransform (tr.keyOfValue value)
              if key = existingKey then duplicate current
              else do
                let (node, index) ← Variant.splitLeaf limit current existingKey key depth
                place node index
            else do
              let (node, depth) ← Variant.enter tr current key depth
              let keyByte ← chunkAt key depth
              let child ← findChild node keyByte
              insertLoop tr limit key duplicate place steps (depth + 1) child node
        | none => do
            let node ← makeRoom previous key
            place node (depth - 1)
      else throw .unreachable

/-- `insert_unique`. -/
def insertUnique (tr : Traits K V n) (x : V) : Run H K V n (Addr × Bool) := do
  let tree ← this
  let key := tree.keyTransform (tr.keyOfValue x)
  match tree.root with
  | none => do
      let newLeaf ← new ⟨some tree.dummyNode, .leaf x⟩
      setRoot (some newLeaf)
      updateCount (· + 1)
      linkDummy
      pure (newLeaf, true)
  | some root =>
      insertLoop tr n key (fun existingLeaf => pure (existingLeaf, false))
        (fun node index => do
          let newLeaf ← new ⟨some node, .leaf x⟩
          let keyByte ← chunkAt key index
          insertChild node keyByte newLeaf
          updateCount (· + 1)
          pure (newLeaf, true))
        (n + 1) 0 (some root) tree.dummyNode

/-- `get_insert_unique_pos`. -/
def getInsertUniquePos (tr : Traits K V n) (key : Key n) : Run H K V n Addr := do
  let tree ← this
  match tree.root with
  | none => pure tree.dummyNode
  | some root =>
      insertLoop tr (Variant.posLimit H n) key (fun existingLeaf => pure existingLeaf)
        (fun node _ => pure node) (n + 1) 0 (some root) tree.dummyNode

/-- `insert_leaf`. -/
def insertLeaf (parent leaf : Addr) (key : Key n) : Run H K V n Addr := do
  setParent leaf (some parent)
  if (← getType parent) ≠ .dummyNode then do
    let header ← headerOf parent
    let keyByte ← chunkAt key (Header.branch header)
    insertChild parent keyByte leaf
  else replaceRoot leaf
  updateCount (· + 1)
  pure leaf

/-- `emplace_unique`, with the value its arguments construct. When the first `new` throws, the `catch`
deletes a pointer that has not been set. -/
def emplaceUnique (tr : Traits K V n) (x : V) : Run H K V n (Addr × Bool) := do
  let leaf ← onThrow (new ⟨none, .leaf x⟩) (throw .dangling)
  onThrow
    (do
      let tree ← this
      let value ← leafValue leaf
      let key := tree.keyTransform (tr.keyOfValue value)
      let node ← getInsertUniquePos tr key
      if (← getType node) ≠ .leaf then do
        let it ← insertLeaf node leaf key
        pure (it, true)
      else do
        delete leaf
        pure (node, false))
    (delete leaf)

/-! ### Erasure -/

/-- The loop of `erase_unique`. -/
def eraseLoop (tr : Traits K V n) (key : Key n) : ℕ → ℕ → Addr → Run H K V n ℕ
  | 0, _, _ => throw .unreachable
  | steps + 1, depth, current =>
      if depth < n then do
        match ← Variant.pass tr current key depth with
        | none => pure 0
        | some depth => do
            let keyByte ← chunkAt key depth
            match ← findChild current keyByte with
            | none => pure 0
            | some child => do
                if ← isLeaf child then do
                  let value ← leafValue child
                  let tree ← this
                  if key = tree.keyTransform (tr.keyOfValue value) then do
                    eraseChild current keyByte
                    updateCount (· - 1)
                    Variant.fixAfterErase current key
                    pure 1
                  else pure 0
                else eraseLoop tr key steps (depth + 1) child
      else throw .unreachable

/-- `erase_unique`. -/
def eraseUnique (tr : Traits K V n) (k : K) : Run H K V n ℕ := do
  let tree ← this
  match tree.root with
  | none => pure 0
  | some root => do
      let key := tree.keyTransform k
      if ← isLeaf root then do
        let value ← leafValue root
        if key = tree.keyTransform (tr.keyOfValue value) then do
          delete root
          setRoot none
          updateCount (· - 1)
          pure 1
        else pure 0
      else eraseLoop tr key n 0 root

/-- `erase`, by iterator. -/
def eraseAt (tr : Traits K V n) (it : Addr) : Run H K V n Addr := do
  let result ← increment tr it
  let value ← leafValue it
  let tree ← this
  let key := tree.keyTransform (tr.keyOfValue value)
  if some it = tree.root then do
    delete it
    setRoot none
    updateCount (· - 1)
    pure result
  else do
    let node ← deref (← parentOf it)
    let header ← headerOf node
    let keyByte ← chunkAt key (Header.branch header)
    eraseChild node keyByte
    updateCount (· - 1)
    Variant.fixAfterErase node key
    pure result

/-- `clear`. -/
def clear : Run H K V n Unit := do
  let tree ← this
  match tree.root with
  | some root => do
      clearBelow (levels n) root
      delete root
  | none => pure ()
  setRoot none
  updateCount fun _ => 0

/-! ### Lookup -/

/-- The loop of `find`. -/
def findLoop (tr : Traits K V n) (key : Key n) : ℕ → ℕ → Option Addr → Run H K V n Addr
  | 0, _, _ => throw .unreachable
  | steps + 1, depth, current =>
      if depth < n + 1 then
        match current with
        | none => endIt
        | some current => do
            if ← isLeaf current then do
              let value ← leafValue current
              let tree ← this
              if key = tree.keyTransform (tr.keyOfValue value) then pure current else endIt
            else do
              match ← Variant.passStored current key depth with
              | none => endIt
              | some depth => do
                  let keyByte ← chunkAt key depth
                  let child ← findChild current keyByte
                  findLoop tr key steps (depth + 1) child
      else throw .unreachable

/-- `find`. -/
def find (tr : Traits K V n) (k : K) : Run H K V n Addr := do
  let tree ← this
  match tree.root with
  | none => endIt
  | some root => findLoop tr (tree.keyTransform k) (n + 1) 0 (some root)

/-- The loop of `lower_bound` and `upper_bound`, which accept a leaf by the result of
`std::memcmp(&transformed_key, &existing_key, ..)`. -/
def boundLoop (tr : Traits K V n) (accept : Ordering → Bool) (key : Key n) :
    ℕ → ℕ → Option Addr → Option Addr → Run H K V n Addr
  | 0, _, _, _ => throw .unreachable
  | steps + 1, depth, current, previous =>
      if depth < n + 1 then
        match current with
        | none => do neighbour .up key (← deref previous)
        | some current => do
            if ← isLeaf current then do
              let value ← leafValue current
              let tree ← this
              let existingKey := tree.keyTransform (tr.keyOfValue value)
              if accept (lexCompare key.chunks.toList existingKey.chunks.toList) then pure current
              else neighbour .up key (← deref previous)
            else do
              match ← Variant.pass tr current key depth with
              | none => endIt
              | some depth => do
                  let keyByte ← chunkAt key depth
                  let child ← findChild current keyByte
                  boundLoop tr accept key steps (depth + 1) child (some current)
      else throw .unreachable

/-- `lower_bound` and `upper_bound`. -/
def bound (tr : Traits K V n) (accept : Ordering → Bool) (k : K) : Run H K V n Addr := do
  let tree ← this
  match tree.root with
  | none => endIt
  | some root => boundLoop tr accept (tree.keyTransform k) (n + 1) 0 (some root) none

/-- `lower_bound`: a leaf is accepted when the key compares `<= 0` with it. -/
def lowerBound (tr : Traits K V n) (k : K) : Run H K V n Addr :=
  bound tr (fun comparison => comparison != .gt) k

/-- `upper_bound`: a leaf is accepted when the key compares `< 0` with it. -/
def upperBound (tr : Traits K V n) (k : K) : Run H K V n Addr :=
  bound tr (fun comparison => comparison == .lt) k

/-- `equal_range`. -/
def equalRange (tr : Traits K V n) (k : K) : Run H K V n (Addr × Addr) := do
  let lower ← lowerBound tr k
  let upper ← upperBound tr k
  pure (lower, upper)

end CppArt
