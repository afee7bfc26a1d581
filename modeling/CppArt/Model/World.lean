/-
**Any number of containers in one memory.**

A `World` is a memory and the containers that live in it, by their names. `World.Step` executes one
operation: a constructor, an assignment, `swap`, a call of a member function, or the destructor.
`World.Executes` are the runs of the operations of a list.
`World.Reaches` are the states that sequences of operations reach from a memory without objects, where
each operation is of an allowed kind.

The move operations take the data members of their source and leave it empty, but for its sentinel:
`_M_dummy_node->_root` of the source is not written.
-/

import CppArt.Lib.Ownership
import CppArt.Model.Duo
import CppArt.Model.ArPrefixTree
import CppArt.Model.ArTree

namespace CppArt

variable {H K V : Type} {n : ℕ}

/-! ### Move operations and the destructor -/

/-- The container that is left when its root has been moved away: `_M_root = nullptr; _M_count = 0;`. -/
def Tree.released (source : Tree K n) : Tree K n := { source with root := none, count := 0 }

/-- `_M_root = std::move(__x._M_root);` and so on. -/
def takeMembers (source : Tree K n) : Run H K V n Unit := do
  setRoot source.root
  updateCount fun _ => source.count
  modify fun s => { s with tree := { s.tree with keyTransform := source.keyTransform } }

/-- `if (_M_root != nullptr) { _M_root->_parent = _M_dummy_node; _M_dummy_node->_root = _M_root; }` -/
def adoptRoot : Run H K V n Unit := do
  let tree ← this
  match tree.root with
  | some root => do
      setParent root (some tree.dummyNode)
      linkDummy
  | none => pure ()

/-- The move constructor. It returns what is left of the source. -/
def moveConstruct (source : Tree K n) : Run H K V n (Tree K n) := do
  takeMembers source
  let dummy ← newDummy
  modify fun s => { s with tree := { s.tree with dummyNode := dummy } }
  adoptRoot
  pure source.released

/-- The move assignment. It returns what is left of the source. -/
def moveAssign (source : Tree K n) : Run H K V n (Tree K n) := do
  takeMembers source
  adoptRoot
  pure source.released

/-- The destructor: `clear(); delete _M_dummy_node;`, and `~_Dummy_Node` deletes the end leaf. -/
def destroy [Variant H] : Run H K V n Unit := do
  clear
  let tree ← this
  let cell ← load tree.dummyNode
  match cell.body with
  | .dummy _ leaf => do
      delete leaf
      delete tree.dummyNode
  | _ => throw .badCast

/-! ### Containers and operations on them -/

/-- A memory and the containers in it. -/
structure World (H K V : Type) (n : ℕ) where
  mem : Memory (Cell H V)
  trees : ℕ → Option (Tree K n)

namespace World

/-- No object. -/
def blank : World H K V n := ⟨Memory.blank, fun _ => none⟩

/-- The container `i` is now this one, and the memory is the one after a call on it. -/
def put (w : World H K V n) (i : ℕ) (s : St H K V n) : World H K V n :=
  ⟨s.mem, Function.update w.trees i (some s.tree)⟩

/-- The container `i` is now this one. -/
def setTree (w : World H K V n) (i : ℕ) (tree : Tree K n) : World H K V n := w.put i ⟨w.mem, tree⟩

/-- The container `i` has been destroyed. -/
def remove (w : World H K V n) (i : ℕ) (mem : Memory (Cell H V)) : World H K V n :=
  ⟨mem, Function.update w.trees i none⟩

end World

/-- The operations on containers, which are given by their names. -/
inductive Op (K V : Type) (n : ℕ)
  | construct (i : ℕ)
  | constructWith (i : ℕ) (keyTransform : K → Key n)
  | copyConstruct (i j : ℕ)
  | moveConstruct (i j : ℕ)
  | copyAssign (i j : ℕ)
  | moveAssign (i j : ℕ)
  | swap (i j : ℕ)
  | call (i : ℕ) (call : Call K V)
  | destroy (i : ℕ)

/-- Containers are constructed, and their member functions are called. -/
def Op.Plain : Op K V n → Prop
  | .construct _ => True
  | .call _ _ => True
  | _ => False

/-- A container is constructed with a default-constructed transformer. -/
def Op.Default : Op K V n → Prop
  | .constructWith _ _ => False
  | _ => True

/-- A call is legal but for an erasure through an iterator that points to no element. -/
def Call.Legal (s : St H K V n) : Call K V → Prop
  | .eraseAt it => ∃ v, Stored s it v
  | _ => True

namespace World

variable [Variant H]

/-- **One operation.** Constructors make a container with a new name. -/
inductive Step (tr : Traits K V n) : World H K V n → Op K V n → World H K V n → Prop
  | construct {w : World H K V n} {i : ℕ} {s : St H K V n} (free : w.trees i = none)
      (run : init ⟨w.mem, Tree.uninitialised tr.defaultTransform⟩ = .ok ⟨⟩ s) :
      Step tr w (.construct i) (w.put i s)
  | constructWith {w : World H K V n} {i : ℕ} {s : St H K V n} (keyTransform : K → Key n)
      (free : w.trees i = none) (run : init ⟨w.mem, Tree.uninitialised keyTransform⟩ = .ok ⟨⟩ s) :
      Step tr w (.constructWith i keyTransform) (w.put i s)
  | copyConstruct {w : World H K V n} {i j : ℕ} {x : Tree K n} {s : St H K V n}
      (free : w.trees i = none) (source : w.trees j = some x)
      (run : copyConstruct x ⟨w.mem, Tree.uninitialised tr.defaultTransform⟩ = .ok ⟨⟩ s) :
      Step tr w (.copyConstruct i j) (w.put i s)
  | moveConstruct {w : World H K V n} {i j : ℕ} {x x' : Tree K n} {s : St H K V n}
      (free : w.trees i = none) (source : w.trees j = some x)
      (run : CppArt.moveConstruct x ⟨w.mem, Tree.uninitialised tr.defaultTransform⟩ = .ok x' s) :
      Step tr w (.moveConstruct i j) ((w.put i s).setTree j x')
  | copyAssignSelf {w : World H K V n} {i : ℕ} {x : Tree K n} (target : w.trees i = some x) :
      Step tr w (.copyAssign i i) w
  | copyAssign {w : World H K V n} {i j : ℕ} {t x : Tree K n} {s : St H K V n} (other : i ≠ j)
      (target : w.trees i = some t) (source : w.trees j = some x)
      (run : CppArt.copyAssign x ⟨w.mem, t⟩ = .ok ⟨⟩ s) : Step tr w (.copyAssign i j) (w.put i s)
  | moveAssignSelf {w : World H K V n} {i : ℕ} {x x' : Tree K n} {s : St H K V n}
      (target : w.trees i = some x) (run : CppArt.moveAssign x ⟨w.mem, x⟩ = .ok x' s) :
      Step tr w (.moveAssign i i) (w.put i ⟨s.mem, s.tree.released⟩)
  | moveAssign {w : World H K V n} {i j : ℕ} {t x x' : Tree K n} {s : St H K V n} (other : i ≠ j)
      (target : w.trees i = some t) (source : w.trees j = some x)
      (run : CppArt.moveAssign x ⟨w.mem, t⟩ = .ok x' s) :
      Step tr w (.moveAssign i j) ((w.put i s).setTree j x')
  | swap {w : World H K V n} {i j : ℕ} {t x : Tree K n} (target : w.trees i = some t)
      (source : w.trees j = some x) : Step tr w (.swap i j) ((w.setTree i x).setTree j t)
  | call {w : World H K V n} {i : ℕ} {t : Tree K n} {call : Call K V} {answer : Answer} {s : St H K V n}
      (target : w.trees i = some t) (legal : call.Legal ⟨w.mem, t⟩)
      (run : perform tr call ⟨w.mem, t⟩ = .ok answer s) : Step tr w (.call i call) (w.put i s)
  | destroy {w : World H K V n} {i : ℕ} {t : Tree K n} {s : St H K V n} (target : w.trees i = some t)
      (run : CppArt.destroy ⟨w.mem, t⟩ = .ok ⟨⟩ s) : Step tr w (.destroy i) (w.remove i s.mem)

/-- **The operations of a list are executed**, from a memory without objects. -/
inductive Executes (tr : Traits K V n) : List (Op K V n) → World H K V n → Prop
  | nil : Executes tr [] blank
  | snoc {ops : List (Op K V n)} {w w' : World H K V n} {op : Op K V n} (before : Executes tr ops w)
      (step : Step tr w op w') : Executes tr (ops ++ [op]) w'

/-- **The states reached** from a memory without objects by operations of an allowed kind. -/
inductive Reaches (tr : Traits K V n) (allowed : World H K V n → Op K V n → Prop) : World H K V n → Prop
  | blank : Reaches tr allowed blank
  | step {w w' : World H K V n} {op : Op K V n} (before : Reaches tr allowed w) (fine : allowed w op)
      (step : Step tr w op w') : Reaches tr allowed w'

end World

/-! ### Kinds of operations -/

/-- In each `_Node_48` every byte in use has its child in the slot with its own number. -/
def ArTree.FitToCopy (s : ArTree.State K V n) : Prop := ∀ a h l, IsInner s a h l → l.Aligned

/-- And no `_Node_48` has a prefix. -/
def ArPrefixTree.FitToCopy (s : ArPrefixTree.State K V n) : Prop :=
  ∀ a h l, IsInner s a h l → l.Aligned ∧ (l.getType = .node48 → h.prefixLength = 0)

/-- A container that is copied is fit for it. -/
def Op.CopiesFit (fit : St H K V n → Prop) (w : World H K V n) : Op K V n → Prop
  | .copyConstruct _ j => ∀ x, w.trees j = some x → fit ⟨w.mem, x⟩
  | .copyAssign i j => i ≠ j → ∀ x, w.trees j = some x → fit ⟨w.mem, x⟩
  | _ => True

/-- The call leaves a container empty that was not. -/
def Call.Empties (tr : Traits K V n) (s : St H K V n) : Call K V → Prop
  | .erase k => s.tree.count = 1 ∧ ∃ it v, Stored s it v ∧ tr.keyOf v = tr.defaultTransform k
  | .eraseAt _ => s.tree.count = 1
  | .clear => s.tree.count ≠ 0
  | _ => False

/-- **A container loses its root** and its sentinel keeps it: the last element is erased, a container with
elements is cleared or moved from, or an empty one is moved to a container with elements. -/
def Op.LosesRoot (tr : Traits K V n) (w : World H K V n) : Op K V n → Prop
  | .moveConstruct _ j => ∃ x, w.trees j = some x ∧ x.count ≠ 0
  | .moveAssign i j => ∃ t x, w.trees i = some t ∧ w.trees j = some x ∧ (t.count ≠ 0 ∨ x.count ≠ 0)
  | .call i c => ∃ t, w.trees i = some t ∧ c.Empties tr ⟨w.mem, t⟩
  | _ => False

/-- **Nodes are lost**: an empty container is copied to another one, or a container with elements is the
target of a move. -/
def Op.LosesNodes (w : World H K V n) : Op K V n → Prop
  | .copyAssign i j => i ≠ j ∧ ∃ x, w.trees j = some x ∧ x.count = 0
  | .moveAssign i _ => ∃ t, w.trees i = some t ∧ t.count ≠ 0
  | _ => False

/-! ### Sentinels and accounts -/

/-- **The sentinel knows the root**, so `--` from `end()` leads to an element of the container, or to
`end()` again if there is none. -/
structure Sentinel [Header H] (tr : Traits K V n) (s : St H K V n) : Prop where
  tethered : Tethered s
  empty : s.tree.root = none ↔ s.tree.count = 0
  predecessor : ∀ last, IsEnd s last → ∃ it, decrement tr last s = .ok it s ∧
    ((∃ v, Stored s it v) ∨ (s.tree.count = 0 ∧ it = last))

/-- The nodes a container holds: inner nodes and leaves, a sentinel and an end leaf. -/
noncomputable def World.held (w : World H K V n) (i : ℕ) : ℕ :=
  match w.trees i with
  | some t => {a | Reached ⟨w.mem, t⟩ a}.ncard + 2
  | none => 0

/-- **The nodes that are live are those the containers hold.** -/
def World.Balanced (w : World H K V n) : Prop :=
  ∃ names : Finset ℕ, (∀ i, i ∈ names ↔ w.trees i ≠ none) ∧
    w.mem.live.ncard = ∑ i ∈ names, w.held i

end CppArt
